import Mathlib.Data.List.Basic
import Mathlib.Data.List.Infix
import Mathlib.Logic.Relation
import Mathlib.Tactic.Common

/-! Paths in a tree of directories with symbolic links: what they resolve to, and when they stay
below a directory. -/
namespace PathWalk

/-- A component of a path: one that stays where it is, one that goes up, or a name. -/
inductive Component (κ : Type*)
  | stay | up | name (n : κ)
  deriving DecidableEq, Repr

/-- What a directory has under a name: a node, or a link with its target. -/
inductive Entry (ν κ : Type*)
  | node (n : ν)
  | link (fromRoot : Bool) (target : List (Component κ))
  deriving DecidableEq, Repr

/-- A tree of directories. -/
structure Tree (ν κ : Type*) where
  root : ν
  parent : ν → ν
  isDir : ν → Bool
  entry : ν → κ → Option (Entry ν κ)

namespace Tree

variable {ν κ : Type*}

/-- The nodes under the components of a path, one after the other, up to the first link. -/
def walkWith (T : Tree ν κ) (follow : ν → List (Component κ) → Option ν) (d : ν) :
    List (Component κ) → Option ν
  | [] => some d
  | p :: path =>
    if T.isDir d then
      match p with
      | .stay => T.walkWith follow d path
      | .up => T.walkWith follow (T.parent d) path
      | .name n =>
        match T.entry d n with
        | none => none
        | some (.node m) => T.walkWith follow m path
        -- a relative target counts from the directory of the link
        | some (.link fromRoot target) => follow (if fromRoot then T.root else d) (target ++ path)
    else none

/-- What a path resolves to from a directory on, with at most so many links. -/
def walk (T : Tree ν κ) : ℕ → ν → List (Component κ) → Option ν
  | 0 => T.walkWith fun _ _ => none
  | links + 1 => T.walkWith (T.walk links)

variable {T : Tree ν κ} {b d m : ν} {path rest : List (Component κ)} {links : ℕ}
  {follow : ν → List (Component κ) → Option ν}

/-- An entry of a directory. -/
def Child (T : Tree ν κ) (d m : ν) : Prop := ∃ n, T.entry d n = some (.node m)

/-- A directory, or something below it. -/
def Below (T : Tree ν κ) : ν → ν → Prop := Relation.ReflTransGen T.Child

/-- There are no links in a directory or below it. -/
def NoLinks (T : Tree ν κ) (b : ν) : Prop :=
  ∀ d, T.Below b d → ∀ n fromRoot target, T.entry d n ≠ some (.link fromRoot target)

@[simp]
theorem walkWith_nil : T.walkWith follow d [] = some d := rfl

theorem walkWith_cons {p : Component κ} (hd : T.isDir d = true) :
    T.walkWith follow d (p :: path) =
      match p with
      | .stay => T.walkWith follow d path
      | .up => T.walkWith follow (T.parent d) path
      | .name n =>
        match T.entry d n with
        | none => none
        | some (.node m) => T.walkWith follow m path
        | some (.link fromRoot target) =>
          follow (if fromRoot then T.root else d) (target ++ path) := by
  rw [walkWith.eq_def]
  exact if_pos hd

theorem walkWith_isDir {p : Component κ} (h : T.walkWith follow d (p :: path) = some m) :
    T.isDir d = true := by
  by_contra hd
  rw [walkWith.eq_def] at h
  exact absurd ((if_neg hd).symm.trans h) nofun

/-- Without links and without going up, a path stays below the directory where it starts. -/
theorem walkWith_below (hlinks : T.NoLinks b) (hd : T.Below b d) (hup : .up ∉ path)
    (h : T.walkWith follow d path = some m) : T.Below b m := by
  induction path generalizing d with
  | nil =>
    rw [walkWith_nil, Option.some.injEq] at h
    exact h ▸ hd
  | cons p path ih =>
    rw [List.mem_cons, not_or] at hup
    rw [walkWith_cons (walkWith_isDir h)] at h
    cases p with
    | stay => exact ih hd hup.2 h
    | up => exact absurd rfl hup.1
    | name n =>
      cases he : T.entry d n with
      | none => simp only [he, reduceCtorEq] at h
      | some e =>
        cases e with
        | node m' =>
          simp only [he] at h
          exact ih (hd.tail ⟨n, he⟩) hup.2 h
        | link fromRoot target => exact absurd he (hlinks d hd n fromRoot target)

theorem walk_eq_walkWith (links : ℕ) : ∃ follow, T.walk links = T.walkWith follow := by
  cases links with
  | zero => exact ⟨_, rfl⟩
  | succ links => exact ⟨_, rfl⟩

theorem walk_below (hlinks : T.NoLinks b) (hd : T.Below b d) (hup : .up ∉ path)
    (h : T.walk links d path = some m) : T.Below b m := by
  obtain ⟨follow, hf⟩ := walk_eq_walkWith (T := T) links
  rw [hf] at h
  exact walkWith_below hlinks hd hup h

theorem walk_isDir {p : Component κ} (h : T.walk links d (p :: path) = some m) : T.isDir d = true := by
  obtain ⟨follow, hf⟩ := walk_eq_walkWith (T := T) links
  rw [hf] at h
  exact walkWith_isDir h

/-- The first part of a path resolves, and the second one from there on. -/
def Splits (T : Tree ν κ) (follow : ν → List (Component κ) → Option ν) : Prop :=
  ∀ d path rest m, follow d (path ++ rest) = some m →
    ∃ e links, follow d path = some e ∧ T.walk links e rest = some m

theorem splits_walkWith (links : ℕ) (hwalk : T.walk links = T.walkWith follow)
    (hf : T.Splits follow) : T.Splits (T.walkWith follow) := by
  intro d path rest m h
  induction path generalizing d with
  | nil => exact ⟨d, links, walkWith_nil, hwalk ▸ h⟩
  | cons p path ih =>
    rw [List.cons_append] at h
    have hd := walkWith_isDir h
    rw [walkWith_cons hd] at h ⊢
    cases p with
    | stay => exact ih d h
    | up => exact ih _ h
    | name n =>
      cases he : T.entry d n with
      | none => simp only [he, reduceCtorEq] at h
      | some e =>
        simp only [he] at h ⊢
        cases e with
        | node m' => exact ih m' h
        | link fromRoot target =>
          simp only [← List.append_assoc] at h
          exact hf _ _ _ _ h

/-- A path in two parts: the first one is resolved, and the second one from there on. -/
theorem splits_walk (links : ℕ) : T.Splits (T.walk links) := by
  induction links with
  | zero => exact splits_walkWith 0 rfl nofun
  | succ links ih => exact splits_walkWith (links + 1) rfl ih

end Tree

section Components

variable {α : Type*} [BEq α] [LawfulBEq α] {a : α} {part : List α}

/-- A component of a text is a part of the text. -/
theorem infix_of_mem_splitOn {s : List α} (h : part ∈ s.splitOn a) : part <:+: s := by
  induction hn : s.length using Nat.strong_induction_on generalizing s with
  | _ n ih =>
    by_cases ha : a ∈ s
    · obtain ⟨xs, as, rfl⟩ := List.append_of_mem ha
      rw [List.length_append, List.length_cons] at hn
      rw [List.splitOn_append_cons_self, List.mem_append] at h
      rcases h with h | h
      · exact (ih xs.length (by omega) h rfl).trans (List.prefix_append xs _).isInfix
      · exact (ih as.length (by omega) h rfl).trans
          ((List.suffix_cons a as).trans (List.suffix_append xs _)).isInfix
    · rw [List.splitOn_eq_singleton ha, List.mem_singleton] at h
      exact h ▸ List.infix_rfl

end Components

end PathWalk
