import CogServer.CommandWords
import CogServer.LoadedModules
import CogServer.TelnetLines
import Mathlib.Data.Bool.AllAny
import Mathlib.Data.List.Infix

/-! The table of modules that `list` shows, and the names in it that `unload` takes. -/
namespace CogServer

open Transition Telnet CommandWords

namespace ModuleTable

variable {modulePaths : List Bytes} {g : ModuleTable} {d : ModuleEntry} {entries : List (Bytes × ModuleEntry)}

/-- `%-*s` of a C string. -/
def leftPadded (width : ℕ) (s : Bytes) : Bytes := cStr s ++ List.replicate (width - (cStr s).length) blank

/-- The end of a long directory path. -/
def truncated (dirpath : Bytes) : Bytes :=
  if 38 < dirpath.length then ascii "..." ++ dirpath.drop (dirpath.length - 35) else dirpath

/-- The text of a row, and what fits of it with its newline into the buffer. -/
def rowText (d : ModuleEntry) : Bytes :=
  leftPadded 21 d.id ++ blank :: (leftPadded 18 d.filename ++ blank :: cStr (truncated d.dirpath))

def moduleRow (d : ModuleEntry) : Bytes := (rowText d ++ [newline]).take 119

def titles : List Bytes :=
  [ascii "   Module Name           Library            Module Directory Path",
    ascii "   -----------           -------            ---------------------"]

/-- The entries that are shown: the map has each module under its name and under its library. -/
def listed (entries : List (Bytes × ModuleEntry)) : List ModuleEntry :=
  (entries.filter fun e => ascii ".so" <:+: e.1).map (·.2)

/-- `listModules`, for the entries of the module map in the order of its keys. -/
def listModules (entries : List (Bytes × ModuleEntry)) : Bytes :=
  titles.flatMap (· ++ [newline]) ++ (listed entries).flatMap moduleRow

/-- What a loop over a `std::map` visits. -/
structure Iterates (modules : Bytes → Option ModuleEntry) (entries : List (Bytes × ModuleEntry)) : Prop where
  sorted : entries.Pairwise fun a b => a.1 < b.1
  mem : ∀ k d, (k, d) ∈ entries ↔ modules k = some d

/-- A word that needs no quotes. -/
def IsWord (s : Bytes) : Prop := s ≠ [] ∧ ∀ c ∈ s, c ≠ blank ∧ c ≠ quote ∧ c ≠ newline ∧ c ≠ 0

instance (s : Bytes) : Decidable (IsWord s) :=
  decidable_of_iff (s ≠ [] ∧ (s.all fun c => c ≠ blank ∧ c ≠ quote ∧ c ≠ newline ∧ c ≠ 0) = true)
    (and_congr_right' List.all_iff_forall_prop)

/-- A module as modules are: its library is named like one and it is not, its names are words, and
they leave room for the directory. -/
structure Usual (d : ModuleEntry) : Prop where
  library : ascii ".so" <:+: d.filename
  named : ¬ ascii ".so" <:+: d.id
  id : IsWord d.id
  filename : IsWord d.filename
  room : max 21 d.id.length + max 18 d.filename.length ≤ 78
  oneLine : newline ∉ d.dirpath

theorem Paired.of_reach (hr : Reach (tableSystem modulePaths) (Fits modulePaths) g) : g.Paired := by
  refine hr.invariant Paired ?_ ?_
  · rintro g rfl
    exact ⟨by simp [new], by simp [new], by simp [new]⟩
  · intro g a t hg hpaired ha ht
    exact (hpaired.step_iff (Sound.of_reach hg) ht).mpr ha

theorem cStr_of_isWord {s : Bytes} (h : IsWord s) : cStr s = s := by
  refine List.takeWhile_eq_self_iff.mpr fun c hc => ?_
  simpa using (h.2 c hc).2.2.2

/-- A module is shown under its library only. -/
theorem mem_listed (hr : Reach (tableSystem modulePaths) (Fits modulePaths) g) (he : Iterates g.modules entries)
    (husual : ∀ m d, g.loaded m = some d → Usual d) :
    ∀ e ∈ entries.filter (fun e => ascii ".so" <:+: e.1),
      e.1 = e.2.filename ∧ g.loaded e.2.module = some e.2 := by
  rintro ⟨k, d⟩ h
  obtain ⟨hmem, hso⟩ := List.mem_filter.mp h
  obtain ⟨hd, hk⟩ := (Sound.of_reach hr).mapped k d ((he.mem k d).mp hmem)
  -- the id, which is the other key, is not named like a library
  refine ⟨hk.resolve_left fun hid => ?_, hd⟩
  exact (husual _ _ hd).named (hid ▸ of_decide_eq_true hso)

/-- Each loaded module is shown once, in the order of the libraries. -/
theorem listed_loaded (hr : Reach (tableSystem modulePaths) (Fits modulePaths) g) (he : Iterates g.modules entries)
    (husual : ∀ m d, g.loaded m = some d → Usual d) :
    (listed entries).Pairwise (fun d e => d.filename < e.filename) ∧
      ∀ d, d ∈ listed entries ↔ ∃ m, g.loaded m = some d := by
  have hmem := mem_listed hr he husual
  constructor
  · rw [listed, List.pairwise_map]
    refine (he.sorted.filter _).imp_of_mem fun {a b} ha hb hab => ?_
    rw [← (hmem a ha).1, ← (hmem b hb).1]
    exact hab
  · intro d
    constructor
    · intro h
      obtain ⟨e, hmem', rfl⟩ := List.mem_map.mp h
      exact ⟨_, (hmem e hmem').2⟩
    · rintro ⟨m, hd⟩
      have hkey := ((Paired.of_reach hr).keys m d hd d.filename).mpr (.inr rfl)
      refine List.mem_map.mpr ⟨(d.filename, d), List.mem_filter.mpr ⟨(he.mem _ _).mpr hkey, ?_⟩, rfl⟩
      exact decide_eq_true (husual m d hd).library

theorem leftPadded_of_isWord {s : Bytes} (h : IsWord s) (width : ℕ) :
    leftPadded width s = s ++ List.replicate (width - s.length) blank := by
  rw [leftPadded, cStr_of_isWord h]

/-- A word in a column is read back, up to what stands in the next column. -/
theorem simpleTokenize_column {s : Bytes} (h : IsWord s) (width : ℕ) (rest : Bytes) :
    simpleTokenize (leftPadded width s ++ blank :: rest) = s :: simpleTokenize rest := by
  have hq : quote ∉ s := fun hmem => (h.2 _ hmem).2.1 rfl
  have hb : blank ∉ s := fun hmem => (h.2 _ hmem).1 rfl
  -- the padding and the blank between the columns are the same to the tokenizer
  obtain ⟨k, hk⟩ : ∃ k, List.replicate (width - s.length) blank ++ blank :: rest =
      blank :: (List.replicate k blank ++ rest) := by
    refine ⟨width - s.length, ?_⟩
    rw [← List.singleton_append, ← List.append_assoc, ← List.replicate_succ', List.replicate_succ]
    rfl
  rw [leftPadded_of_isWord h, List.append_assoc, hk, simpleTokenize_bare hq hb h.1 (.inr ⟨_, rfl⟩),
    simpleTokenize_blank, simpleTokenize_blanks]

theorem truncated_length (dirpath : Bytes) : (truncated dirpath).length ≤ 38 := by
  unfold truncated
  split
  · rw [List.length_append, List.length_drop]
    have hdots : (ascii "...").length = 3 := rfl
    omega
  · omega

/-- A row fits into the buffer. -/
theorem moduleRow_eq (h : Usual d) : moduleRow d = rowText d ++ [newline] := by
  refine List.take_of_length_le ?_
  have hdir : (cStr (truncated d.dirpath)).length ≤ 38 :=
    (List.takeWhile_prefix _).length_le.trans (truncated_length d.dirpath)
  have hroom := h.room
  simp only [rowText, leftPadded_of_isWord h.id, leftPadded_of_isWord h.filename, List.length_append,
    List.length_cons, List.length_replicate, List.length_nil]
  omega

theorem rowText_oneLine (h : Usual d) : newline ∉ rowText d := by
  have hword {s : Bytes} (hs : IsWord s) (width : ℕ) : newline ∉ leftPadded width s := by
    rw [leftPadded_of_isWord hs]
    intro hmem
    rcases List.mem_append.mp hmem with hmem | hmem
    · exact (hs.2 _ hmem).2.2.1 rfl
    · exact absurd (List.eq_of_mem_replicate hmem) (by decide)
  have hdir : newline ∉ cStr (truncated d.dirpath) := by
    intro hmem
    have hmem := (List.takeWhile_prefix _).subset hmem
    unfold truncated at hmem
    split at hmem
    · rcases List.mem_append.mp hmem with hmem | hmem
      · exact absurd hmem (by decide)
      · exact h.oneLine (List.mem_of_mem_drop hmem)
    · exact h.oneLine hmem
  have hblank : newline ≠ blank := by decide
  simp only [rowText, List.mem_append, List.mem_cons, hword h.id, hword h.filename, hdir, hblank, or_self,
    not_false_eq_true]

/-- The module map with both modules, in the order of its keys. -/
def bothEntries : List (Bytes × ModuleEntry) :=
  [(ascii "A", entryA [ascii "json"]), (ascii "B", entryB (ascii "B") [ascii "sexpr"]),
    (ascii "a.so", entryA [ascii "json"]), (ascii "b.so", entryB (ascii "B") [ascii "sexpr"])]

theorem iterates_both : Iterates (bothLoaded (ascii "B") [ascii "json"] [ascii "sexpr"]).modules bothEntries := by
  refine ⟨by decide, fun k d => ?_⟩
  have hkeys : [ascii "A", ascii "B", ascii "a.so", ascii "b.so"].Nodup := by decide
  have hall : ∀ e ∈ bothEntries,
      (bothLoaded (ascii "B") [ascii "json"] [ascii "sexpr"]).modules e.1 = some e.2 := by decide
  refine ⟨fun h => hall (k, d) h, fun h => ?_⟩
  rw [bothLoaded, modules_load] at h
  split at h
  · next hk =>
    obtain rfl := Option.some.inj h
    rcases hk with rfl | rfl
    · exact .tail _ (.head _)
    · exact .tail _ (.tail _ (.tail _ (.head _)))
  · rw [modules_load] at h
    split at h
    · next hk =>
      obtain rfl := Option.some.inj h
      rcases hk with rfl | rfl
      · exact .head _
      · exact .tail _ (.tail _ (.head _))
    · cases h

end ModuleTable

end CogServer
