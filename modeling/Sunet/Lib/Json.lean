/-
# JSON values

Values as a program builds them in memory.  A value that is used as an object or as an array is
made one if it is null, a member that is asked for is made null if there is none, and a use
that does not fit the type of a value fails, as with `operator[]` and `append` of a value in C++.
-/
import Sunet.Lib.SortedMap

namespace Sunet

/-- JSON values with strings in `κ`, which are the names of members as well, and numbers in
`ν`. -/
inductive Json (κ ν : Type)
  | null
  | str (s : κ)
  | num (x : ν)
  | arr (elems : List (Json κ ν))
  | obj (members : List (κ × Json κ ν))

namespace Json

open SortedMap

variable {κ ν : Type} [LT κ] [DecidableEq κ] [DecidableLT κ]

/-- The member of a name, null if there is none. -/
def get (json : Json κ ν) (key : κ) : Json κ ν :=
  match json with
  | obj members => (find key members).getD null
  | _ => null

/-- A change of the member of a name. -/
def modify (json : Json κ ν) (key : κ) (f : Json κ ν → Option (Json κ ν)) : Option (Json κ ν) :=
  match json with
  | null => (f null).map fun v => obj [(key, v)]
  | obj members => (f ((find key members).getD null)).map fun v => obj (set key v members)
  | _ => none

/-- The member of a name is set. -/
def put (json : Json κ ν) (key : κ) (v : Json κ ν) : Option (Json κ ν) :=
  json.modify key fun _ => some v

/-- An element behind the others. -/
def append (json v : Json κ ν) : Option (Json κ ν) :=
  match json with
  | null => some (arr [v])
  | arr elems => some (arr (elems ++ [v]))
  | _ => none

/-- The value can be used as an object. -/
def IsMap : Json κ ν → Prop
  | null => True
  | obj _ => True
  | _ => False

/-- What is at the name after a change, and what is elsewhere. -/
lemma IsMap.modify {json : Json κ ν} (h : json.IsMap) {key : κ}
    {f : Json κ ν → Option (Json κ ν)} {v : Json κ ν} (hf : f (json.get key) = some v) :
    ∃ json', json.modify key f = some json' ∧ json'.IsMap ∧
      ∀ key', json'.get key' = if key' = key then v else json.get key' := by
  cases json with
  | null =>
    refine ⟨obj [(key, v)], ?_, trivial, fun key' => ?_⟩
    · rw [Json.modify, show f null = some v from hf]
      rfl
    · rw [get, find]
      split <;> rfl
  | obj members =>
    refine ⟨obj (set key v members), ?_, trivial, fun key' => ?_⟩
    · rw [Json.modify, show f ((find key members).getD null) = some v from hf]
      rfl
    · rw [get, find_set]
      split <;> rfl
  | str s => exact h.elim
  | num x => exact h.elim
  | arr elems => exact h.elim

/-- What is at the names after one of them was set. -/
lemma IsMap.put {json : Json κ ν} (h : json.IsMap) (key : κ) (v : Json κ ν) :
    ∃ json', json.put key v = some json' ∧ json'.IsMap ∧
      ∀ key', json'.get key' = if key' = key then v else json.get key' :=
  h.modify (f := fun _ => some v) rfl

omit [LT κ] [DecidableEq κ] [DecidableLT κ] in
/-- Elements behind those of an array. -/
lemma foldlM_append {α : Type} (f : α → Json κ ν) (l : List α) (elems : List (Json κ ν)) :
    l.foldlM (fun json x => json.append (f x)) (arr elems) = some (arr (elems ++ l.map f)) := by
  induction l generalizing elems with
  | nil => rw [List.map_nil, List.append_nil]; rfl
  | cons x l ih =>
    rw [List.foldlM_cons, append, Option.bind_eq_bind, Option.bind_some, ih, List.map_cons,
      List.append_assoc, List.singleton_append]

omit [LT κ] [DecidableEq κ] [DecidableLT κ] in
/-- Elements of a new array; null if there are none. -/
lemma foldlM_append_null {α : Type} (f : α → Json κ ν) (l : List α) :
    l.foldlM (fun json x => json.append (f x)) null =
      some (if l = [] then null else arr (l.map f)) := by
  cases l with
  | nil => rfl
  | cons x l =>
    rw [List.foldlM_cons, append, Option.bind_eq_bind, Option.bind_some, foldlM_append]
    rfl

end Json
end Sunet
