import Avroc.File.Node
import Avroc.Proofs.Json.Members

/-!
# Trees with one node set

What a tree of files holds at each place after a node has been put in place.  The times of
directories are left aside.

* `Node.kind?_append` : places are followed one name after the other.
* `Node.kind?_set_append` : what is found at the place and below it.
* `Node.kind?_set_of_not_prefix` : everything else stays.
-/

namespace Avroc

open List

variable {n : Node} {p q : List String}

/-- What may stand at a place. -/
inductive Kind
  | file (content : Content) (time : Int)
  | directory

namespace Node

/-- What the node is. -/
def kind : Node → Kind
  | file content time => .file content time
  | directory .. => .directory

/-- What stands at a place. -/
def kind? (n : Node) (place : List String) : Option Kind :=
  (n.at? place).map kind

@[simp] theorem kind?_nil (n : Node) : n.kind? [] = some n.kind := rfl

@[simp] theorem kind?_cons (n : Node) (name : String) (place : List String) :
    n.kind? (name :: place) = (n.entries.lookup name).bind (·.kind? place) := by
  rw [kind?, at?]
  cases n.entries.lookup name <;> rfl

theorem at?_concat (n : Node) (place : List String) (name : String) :
    n.at? (place ++ [name]) = (n.at? place).bind fun m => m.entries.lookup name := by
  induction place generalizing n with
  | nil =>
    show n.at? [name] = n.entries.lookup name
    rw [at?]
    cases n.entries.lookup name <;> rfl
  | cons part place ih =>
    rw [cons_append, at?, at?]
    cases n.entries.lookup part with
    | none => rfl
    | some child => exact ih child

theorem kind?_append (n : Node) (p q : List String) :
    n.kind? (p ++ q) = (n.at? p).bind (·.kind? q) := by
  induction p generalizing n with
  | nil => rfl
  | cons name p ih =>
    rw [cons_append, kind?_cons, at?]
    cases n.entries.lookup name with
    | none => rfl
    | some child => exact ih child

/-- Nothing stands below a file, and nothing below a place where nothing stands. -/
theorem kind?_below (h : n.kind? p ≠ some .directory) (hq : q ≠ []) :
    n.kind? (p ++ q) = none := by
  rw [kind?_append]
  rw [kind?] at h
  cases hn : n.at? p with
  | none => rfl
  | some node =>
    rw [hn] at h
    cases node with
    | directory entries time => exact absurd rfl h
    | file content time =>
      cases q with
      | nil => exact absurd rfl hq
      | cons name q => rfl

/-- What stands above something is a directory. -/
theorem kind?_above (hq : q ≠ []) (h : (n.kind? (p ++ q)).isSome = true) :
    n.kind? p = some .directory := by
  refine Classical.byContradiction fun hk => ?_
  rw [kind?_below hk hq] at h
  cases h

theorem kind?_nil_of_directory (h : n.kind? p = some .directory) :
    n.kind? [] = some .directory := by
  cases p with
  | nil => exact h
  | cons name p => exact kind?_above (p := []) (cons_ne_nil name p) (by rw [nil_append, h]; rfl)

theorem setEntry_eq_putKey (name : String) (node : Node) (entries : List (String × Node)) :
    setEntry name node entries = putKey name node entries := by
  induction entries with
  | nil => rfl
  | cons e entries ih => rw [setEntry, putKey, ih]

theorem lookup_setEntry (name key : String) (node : Node) (entries : List (String × Node)) :
    (setEntry name node entries).lookup key =
      if key = name then some node else entries.lookup key := by
  rw [setEntry_eq_putKey, lookup_putKey]

variable {now : Int} {new : Node}

/-- A node that is put into a directory is found there. -/
theorem at?_set_self {parent : List String} (name : String) (h : n.kind? parent = some .directory) :
    (set now new n (parent ++ [name])).at? (parent ++ [name]) = some new := by
  induction parent generalizing n with
  | nil =>
    cases n with
    | file content time => cases h
    | directory entries time =>
      rw [nil_append, set]
      cases hl : entries.lookup name with
      | some child => simp [at?, Node.entries, lookup_setEntry, set]
      | none => simp [at?, Node.entries, lookup_append, hl]
  | cons part parent ih =>
    cases n with
    | file content time => cases h
    | directory entries time =>
      rw [kind?_cons] at h
      rw [cons_append, set]
      cases hl : entries.lookup part with
      | some child =>
        have hchild : child.kind? parent = some .directory := by simpa [Node.entries, hl] using h
        simpa [at?, Node.entries, lookup_setEntry] using ih hchild
      | none => simp [Node.entries, hl] at h

/-- Below a node that is put in place stands what it brings, unless it is put nowhere. -/
theorem kind?_set_append (n : Node) (place rest : List String) :
    (set now new n place).kind? (place ++ rest) = new.kind? rest ∨
      (set now new n place).kind? (place ++ rest) = n.kind? (place ++ rest) := by
  induction place generalizing n with
  | nil => exact .inl rfl
  | cons name place ih =>
    cases n with
    | file content time => exact .inr rfl
    | directory entries time =>
      rw [set]
      cases hl : entries.lookup name with
      | some child => simpa [Node.entries, lookup_setEntry, hl] using ih child
      | none =>
        cases place with
        | nil =>
          left
          simp [Node.entries, lookup_append, hl]
        | cons part place => exact .inr rfl

/-- Away from the place where a node is put everything stays. -/
theorem kind?_set_of_not_prefix {place : List String} (h : ¬ place <+: q) :
    (set now new n place).kind? q = n.kind? q := by
  induction place generalizing n q with
  | nil => exact absurd nil_prefix h
  | cons name place ih =>
    cases n with
    | file content time => rfl
    | directory entries time =>
      rw [set]
      cases q with
      | nil =>
        cases entries.lookup name with
        | some child => rfl
        | none => cases place <;> rfl
      | cons key q =>
        cases hl : entries.lookup name with
        | some child =>
          by_cases hk : key = name
          · subst hk
            have hq : ¬ place <+: q := fun hp => h (cons_prefix_cons.mpr ⟨rfl, hp⟩)
            simpa [Node.entries, lookup_setEntry, hl] using ih hq
          · simp [Node.entries, lookup_setEntry, hk]
        | none =>
          cases place with
          | nil =>
            have hk : key ≠ name := fun hk => h (by simp [hk])
            simp [Node.entries, lookup_append, lookup_cons_ite, hk]
          | cons part place => rfl

end Node

end Avroc
