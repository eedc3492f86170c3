import CogServer.ModuleLoading
import Mathlib.Logic.Function.Iterate

/-! The search of `loadModule` for the file of a module. -/
namespace CogServer

namespace ModuleTable

/-- What the search comes to: a file with an absolute path, a call of `exists` that throws, or more
calls inside each other than were allowed for. -/
inductive Visit
  | file (path : Bytes) | thrown | deep
  deriving DecidableEq, Repr

/-- What the search comes to in one directory, where `next` is the search for the joined path. -/
def visitsAt (E : FileSystem) (next : Bytes → List Visit) (path modulePath : Bytes) : List Visit :=
  match E.fileExists (joinPath modulePath path) with
  | none => [.thrown]
  | some false => []
  | some true => next (joinPath modulePath path)

/-- All that the search for a path may come to, in the order of the directories. It looks at the
files only, and not at what is loaded. -/
def visits (E : FileSystem) (modulePaths : List Bytes) : ℕ → Bytes → List Visit
  | 0, _ => [.deep]
  | n + 1, path =>
    if path = [] then []
    else if path.head? = some 47 then [.file path]
    else modulePaths.flatMap (visitsAt E (visits E modulePaths n) path)

variable (E : FileSystem) (modulePaths : List Bytes) (g : ModuleTable)

/-- `loadAbsPath` accepts the file. -/
def accepts (path : Bytes) : Bool := (g.loadAbsPath E path).1

def stops : Visit → Bool
  | .file path => g.accepts E path
  | .thrown | .deep => true

/-- Where the search ends. -/
def stop (n : ℕ) (path : Bytes) : Option Visit := (visits E modulePaths n path).find? (g.stops E)

/-- What `loadModule` makes of it. -/
def settle : Option Visit → Option (Outcome × ModuleTable)
  | none => some (.returned false, g)
  | some (.file path) => some (.returned true, (g.loadAbsPath E path).2)
  | some .thrown => some (.thrown, g)
  | some .deep => none

variable {E modulePaths g} {path : Bytes} {n : ℕ}

/-- A load that is refused changes nothing. -/
theorem loadAbsPath_refused (h : g.accepts E path = false) : g.loadAbsPath E path = (false, g) := by
  unfold accepts at h
  unfold loadAbsPath at h ⊢
  split at h
  · cases h
  · rename_i hnew
    rw [if_neg hnew]
    split at h
    · rfl
    · cases h

theorem searchPaths_eq {load : ModuleTable → Bytes → Option (Outcome × ModuleTable)}
    {next : Bytes → List Visit} (h : ∀ p, load g p = g.settle E ((next p).find? (g.stops E)))
    (dirs : List Bytes) : searchPaths E load path dirs g =
      g.settle E ((dirs.flatMap (visitsAt E next path)).find? (g.stops E)) := by
  induction dirs with
  | nil => rfl
  | cons d dirs ih =>
    -- a directory without the file is passed over, and so is one from which the file is refused
    rw [searchPaths, List.flatMap_cons, List.find?_append, visitsAt]
    cases hd : E.fileExists (joinPath d path) with
    | none => rfl
    | some there =>
      cases there with
      | false => exact ih
      | true =>
        dsimp only
        rw [h]
        cases hs : (next (joinPath d path)).find? (g.stops E) with
        | none => exact ih
        | some v => cases v <;> rfl

/-- `loadModule` loads the first file of the search that `loadAbsPath` accepts. -/
theorem loadModule_eq (n : ℕ) (path : Bytes) :
    loadModule E modulePaths n g path = g.settle E (g.stop E modulePaths n path) := by
  unfold stop
  induction n generalizing path with
  | zero => rfl
  | succ n ih =>
    rw [loadModule, visits]
    split
    · rfl
    · split
      · -- an absolute path is one file, which is accepted or refused
        cases ha : g.accepts E path with
        | true =>
          have hstop : [Visit.file path].find? (g.stops E) = some (.file path) := by
            simp [stops, ha]
          rw [hstop]
          unfold accepts at ha
          rw [ha]
          rfl
        | false =>
          have hstop : [Visit.file path].find? (g.stops E) = none := by simp [stops, ha]
          rw [hstop, loadAbsPath_refused ha]
          rfl
      · -- a relative path is joined to each directory
        exact searchPaths_eq ih modulePaths

/-- A directory where the search ended in time. -/
theorem visitsAt_congr {next next' : Bytes → List Visit}
    (h : ∀ p, (next p).find? (g.stops E) ≠ some .deep →
      (next' p).find? (g.stops E) = (next p).find? (g.stops E))
    (d : Bytes) (hd : (visitsAt E next path d).find? (g.stops E) ≠ some .deep) :
    (visitsAt E next' path d).find? (g.stops E) = (visitsAt E next path d).find? (g.stops E) := by
  unfold visitsAt at hd ⊢
  cases hthere : E.fileExists (joinPath d path) with
  | none => rfl
  | some there =>
    cases there with
    | false => rfl
    | true =>
      simp only [hthere] at hd
      exact h _ hd

theorem visitsAll_congr {next next' : Bytes → List Visit}
    (h : ∀ p, (next p).find? (g.stops E) ≠ some .deep →
      (next' p).find? (g.stops E) = (next p).find? (g.stops E))
    (dirs : List Bytes)
    (hdirs : (dirs.flatMap (visitsAt E next path)).find? (g.stops E) ≠ some .deep) :
    (dirs.flatMap (visitsAt E next' path)).find? (g.stops E) =
      (dirs.flatMap (visitsAt E next path)).find? (g.stops E) := by
  induction dirs with
  | nil => rfl
  | cons d dirs ih =>
    simp only [List.flatMap_cons, List.find?_append] at hdirs ⊢
    -- the search ends in this directory, or it goes on in the others
    cases hd : (visitsAt E next path d).find? (g.stops E) with
    | none =>
      rw [visitsAt_congr h d (by simp [hd]), hd]
      rw [hd, Option.none_or] at hdirs
      rw [Option.none_or, Option.none_or, ih hdirs]
    | some v =>
      rw [hd, Option.some_or] at hdirs
      rw [visitsAt_congr h d (by rw [hd]; exact hdirs), hd]
      rfl

/-- Where the search ended in time, it ends there in any longer time. -/
theorem stop_succ (h : g.stop E modulePaths n path ≠ some .deep) :
    g.stop E modulePaths (n + 1) path = g.stop E modulePaths n path := by
  induction n generalizing path with
  | zero => exact absurd rfl h
  | succ n ih =>
    unfold stop at h ih ⊢
    rw [visits] at h
    rw [visits, visits]
    split
    · rfl
    · rename_i hpath
      rw [if_neg hpath] at h
      split
      · rfl
      · rename_i habs
        rw [if_neg habs] at h
        -- the searches for the joined paths end where they ended before
        exact visitsAll_congr (fun p hp => ih hp) modulePaths h

theorem stop_le {m : ℕ} (hnm : n ≤ m) (h : g.stop E modulePaths n path ≠ some .deep) :
    g.stop E modulePaths m path = g.stop E modulePaths n path := by
  induction m, hnm using Nat.le_induction with
  | base => rfl
  | succ m hnm ih => rw [stop_succ (by rw [ih]; exact h), ih]

/-- The end of the search does not depend on the time it was given. -/
theorem stop_unique {m : ℕ} (hn : g.stop E modulePaths n path ≠ some .deep)
    (hm : g.stop E modulePaths m path ≠ some .deep) :
    g.stop E modulePaths n path = g.stop E modulePaths m path := by
  rcases Nat.le_total n m with hle | hle
  · exact (stop_le hle hn).symm
  · exact stop_le hle hm

section Finds

variable (E modulePaths g path)

/-- A call of `loadModule` comes to an end, with a result or with an exception. -/
def Ends (o : Outcome) (g' : ModuleTable) : Prop :=
  ∃ fuel, loadModule E modulePaths fuel g path = some (o, g')

/-- Some directory of the search has the file, and `loadAbsPath` accepts it from there. -/
def Named : Prop :=
  ∃ d ∈ modulePaths, E.fileExists (joinPath d path) = some true ∧ g.accepts E (joinPath d path)

/-- `loadModule` terminates and finds what is there. -/
structure Finds : Prop where
  ends : ∃ o g', Ends E modulePaths g path o g'
  found : Named E modulePaths g path → ∃ g', Ends E modulePaths g path (.returned true) g'

/-- After finitely many joins, all that the search may come to before its end is known; and where
the file is there, the first entry that stops the search is a file that is accepted. -/
structure Clear : Prop where
  finite : ∃ n, g.stop E modulePaths n path ≠ some .deep
  first : Named E modulePaths g path → ∃ n file, g.stop E modulePaths n path = some (.file file)

/-- Up to the first file that is accepted, all directories can be looked into, and those that have
the file are absolute. -/
def direct : List Bytes → Bool
  | [] => true
  | d :: dirs =>
    match E.fileExists (joinPath d path) with
    | none => false
    | some false => direct dirs
    | some true => d.head? = some 47 && (g.accepts E (joinPath d path) || direct dirs)

end Finds

theorem ends_iff {o : Outcome} {g' : ModuleTable} : Ends E modulePaths g path o g' ↔
    ∃ n, g.settle E (g.stop E modulePaths n path) = some (o, g') := by
  unfold Ends
  simp only [loadModule_eq]

/-- A call comes to an end unless it is always too deep. -/
theorem settle_eq_none {v : Option Visit} : g.settle E v = none ↔ v = some .deep := by
  match v with
  | none => simp [settle]
  | some (.file _) => simp [settle]
  | some .thrown => simp [settle]
  | some .deep => simp [settle]

theorem settle_eq_true {v : Option Visit} {g' : ModuleTable} :
    g.settle E v = some (.returned true, g') ↔
      ∃ file, v = some (.file file) ∧ (g.loadAbsPath E file).2 = g' := by
  match v with
  | none => simp [settle]
  | some (.file _) => simp [settle]
  | some .thrown => simp [settle]
  | some .deep => simp [settle]

theorem finds_iff : Finds E modulePaths g path ↔ Clear E modulePaths g path := by
  constructor
  · rintro ⟨⟨o, g', hends⟩, hfound⟩
    obtain ⟨n, hn⟩ := ends_iff.mp hends
    refine ⟨⟨n, fun hdeep => ?_⟩, fun hnamed => ?_⟩
    · -- a search that is too deep gives no result
      rw [settle_eq_none.mpr hdeep] at hn
      cases hn
    · obtain ⟨g', htrue⟩ := hfound hnamed
      obtain ⟨m, hm⟩ := ends_iff.mp htrue
      obtain ⟨file, hfile, -⟩ := settle_eq_true.mp hm
      exact ⟨m, file, hfile⟩
  · rintro ⟨⟨n, hn⟩, hfirst⟩
    refine ⟨?_, fun hnamed => ?_⟩
    · obtain ⟨⟨o, g'⟩, hr⟩ := Option.ne_none_iff_exists'.mp (mt settle_eq_none.mp hn)
      exact ⟨o, g', ends_iff.mpr ⟨n, hr⟩⟩
    · obtain ⟨m, file, hfile⟩ := hfirst hnamed
      exact ⟨_, ends_iff.mpr ⟨m, settle_eq_true.mpr ⟨file, hfile, rfl⟩⟩⟩

theorem head_joinPath {d : Bytes} (h : d.head? = some 47) :
    (joinPath d path).head? = some 47 := by
  unfold joinPath
  cases d with
  | nil => cases h
  | cons c d =>
    split
    · assumption
    · split <;> exact h

/-- An absolute directory leads to the file that it names. -/
theorem visits_joinPath {d : Bytes} (h : d.head? = some 47) :
    visits E modulePaths (n + 1) (joinPath d path) = [.file (joinPath d path)] := by
  have habs : (joinPath d path).head? = some 47 := head_joinPath h
  have hne : joinPath d path ≠ [] := by
    intro hnil
    rw [hnil] at habs
    cases habs
  rw [visits, if_neg hne, if_pos habs]

/-- A direct search ends at the first file that is accepted, or at none. -/
theorem find_direct (dirs : List Bytes) (h : g.direct E path dirs = true) :
    (∃ d ∈ dirs, (dirs.flatMap (visitsAt E (visits E modulePaths (n + 1)) path)).find? (g.stops E) =
      some (.file (joinPath d path))) ∨
    (dirs.flatMap (visitsAt E (visits E modulePaths (n + 1)) path)).find? (g.stops E) = none ∧
      ¬ Named E dirs g path := by
  induction dirs with
  | nil => exact .inr ⟨rfl, by simp [Named]⟩
  | cons d dirs ih =>
    -- what is to be shown where this directory does not end the search
    have hlater : (visitsAt E (visits E modulePaths (n + 1)) path d).find? (g.stops E) = none →
        g.direct E path dirs = true →
        ¬ (E.fileExists (joinPath d path) = some true ∧ g.accepts E (joinPath d path) = true) →
        (∃ d' ∈ d :: dirs, ((d :: dirs).flatMap
          (visitsAt E (visits E modulePaths (n + 1)) path)).find? (g.stops E) =
            some (.file (joinPath d' path))) ∨
        ((d :: dirs).flatMap (visitsAt E (visits E modulePaths (n + 1)) path)).find? (g.stops E) =
          none ∧ ¬ Named E (d :: dirs) g path := by
      intro hnone hdirs hnot
      rw [List.flatMap_cons, List.find?_append, hnone, Option.none_or]
      rcases ih hdirs with ⟨d', hd', hfile⟩ | ⟨hrest, hnamed⟩
      · exact .inl ⟨d', List.mem_cons_of_mem d hd', hfile⟩
      · refine .inr ⟨hrest, ?_⟩
        rintro ⟨d', hd', hthere⟩
        rcases List.mem_cons.mp hd' with rfl | hd'
        · exact hnot hthere
        · exact hnamed ⟨d', hd', hthere⟩
    unfold direct at h
    cases hthere : E.fileExists (joinPath d path) with
    | none => simp [hthere] at h
    | some there =>
      cases there with
      | false =>
        simp only [hthere] at h
        exact hlater (by simp [visitsAt, hthere]) h (by simp [hthere])
      | true =>
        simp only [hthere, Bool.and_eq_true, Bool.or_eq_true, decide_eq_true_eq] at h
        -- the file is here, and the joined path is absolute, so that nothing is joined again
        obtain ⟨habs, h⟩ := h
        have hvisits : visitsAt E (visits E modulePaths (n + 1)) path d =
            [.file (joinPath d path)] := by
          rw [visitsAt, hthere]
          exact visits_joinPath habs
        cases haccepts : g.accepts E (joinPath d path) with
        | true =>
          refine .inl ⟨d, List.mem_cons_self, ?_⟩
          rw [List.flatMap_cons, List.find?_append, hvisits]
          simp [stops, haccepts]
        | false =>
          simp only [haccepts, Bool.false_eq_true, false_or] at h
          exact hlater (by simp [hvisits, stops, haccepts]) h (by simp [haccepts])

theorem Clear.of_direct (hpath : path ≠ []) (hrel : path.head? ≠ some 47)
    (h : g.direct E path modulePaths = true) : Clear E modulePaths g path := by
  have hstop : g.stop E modulePaths 2 path =
      (modulePaths.flatMap (visitsAt E (visits E modulePaths 1) path)).find? (g.stops E) := by
    rw [stop, visits, if_neg hpath, if_neg hrel]
  rcases find_direct (n := 0) modulePaths h with ⟨d, -, hfile⟩ | ⟨hnone, hnamed⟩
  · exact ⟨⟨2, by simp [hstop, hfile]⟩, fun _ => ⟨2, _, hstop.trans hfile⟩⟩
  · exact ⟨⟨2, by simp [hstop, hnone]⟩, fun h => absurd h hnamed⟩

theorem head_joinPath_ne {d : Bytes} (hd : d.head? ≠ some 47) (h : path.head? ≠ some 47) :
    (joinPath d path).head? ≠ some 47 := by
  unfold joinPath
  rw [if_neg h]
  cases d with
  | nil => simpa using h
  | cons c d => split <;> simpa using hd

theorem joinPath_ne_nil {d : Bytes} (h : path ≠ []) : joinPath d path ≠ [] := by
  unfold joinPath
  split
  · exact h
  · split
    · exact List.append_ne_nil_of_right_ne_nil d h
    · simp

/-- Where a relative directory comes first and the file is there however often it is joined, no
depth is enough. -/
theorem loadModule_endless {d : Bytes} {dirs : List Bytes} (hd : d.head? ≠ some 47)
    (hpath : path ≠ []) (hrel : path.head? ≠ some 47)
    (h : ∀ k, E.fileExists ((joinPath d)^[k + 1] path) = some true) (fuel : ℕ) :
    loadModule E (d :: dirs) fuel g path = none := by
  rw [loadModule_eq, settle_eq_none]
  unfold stop
  induction fuel generalizing path with
  | zero => rfl
  | succ n ih =>
    rw [visits, if_neg hpath, if_neg hrel, List.flatMap_cons, List.find?_append, visitsAt]
    -- the file is there, so the joined path is searched for, and that path is relative again
    have hthere : E.fileExists (joinPath d path) = some true := h 0
    have hnext := ih (joinPath_ne_nil hpath) (head_joinPath_ne hd hrel) fun k => h (k + 1)
    simp only [hthere, hnext, Option.some_or]

/-- A module without commands, in one file. -/
def oneFile (path : Bytes) : FileSystem where
  fileExists p := some (p = path)
  dlopen p := if p = path then some ⟨some (some (ascii "Mod")), some ⟨[], []⟩, true⟩ else none

/-- The install prefix is searched last. -/
def installPath : Bytes := ascii "/usr/local/lib/opencog/modules/"

end ModuleTable

end CogServer
