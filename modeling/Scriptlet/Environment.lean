import Scriptlet.Value
/-!
# Environments

The one table of bindings that a run works on, and the registry of functions that every new
environment starts with. An environment is seen through `get?`: defining a name changes what that
name is bound to (`get?_define_self`) and nothing else (`get?_define_of_ne`).
-/

namespace Scriptlet

/-- Bindings in the order in which their names were first defined, each name once. -/
structure Environment where
  bindings : List (String × Value)
  deriving Inhabited, Repr

namespace Environment

def empty : Environment := ⟨[]⟩

/-- The value that a name is bound to. -/
def get? (env : Environment) (name : String) : Option Value := env.bindings.lookup name

def contains (env : Environment) (name : String) : Bool := (env.get? name).isSome

/-- The bindings with one name bound anew, in its old place if it had one. -/
def rebind (name : String) (v : Value) : List (String × Value) → List (String × Value)
  | [] => [(name, v)]
  | (key, old) :: rest =>
    if name = key then (key, v) :: rest else (key, old) :: rebind name v rest

/-- Bind a name, whether it was bound before or not. -/
def define (env : Environment) (name : String) (v : Value) : Environment :=
  ⟨rebind name v env.bindings⟩

/-- The environment after bindings, made one after the other. -/
def overwrite (env : Environment) (bs : List (String × Value)) : Environment :=
  bs.foldl (fun e b => e.define b.1 b.2) env

@[simp] theorem get?_empty (name : String) : empty.get? name = none := rfl

theorem lookup_cons_if (key k : String) (v : Value) (bs : List (String × Value)) :
    List.lookup key ((k, v) :: bs) = if key = k then some v else bs.lookup key := by
  rw [List.lookup_cons]
  by_cases h : key = k
  · simp [h]
  · rw [beq_false_of_ne h, if_neg h]

theorem lookup_rebind (name key : String) (v : Value) (bs : List (String × Value)) :
    (rebind name v bs).lookup key = if key = name then some v else bs.lookup key := by
  induction bs with
  | nil => simp only [rebind, lookup_cons_if, List.lookup_nil]
  | cons b bs ih =>
    obtain ⟨k, old⟩ := b
    by_cases hn : name = k
    · subst hn
      simp only [rebind, if_true, lookup_cons_if]
      split <;> rfl
    · simp only [rebind, if_neg hn, lookup_cons_if, ih]
      by_cases hk : key = k
      · have : k ≠ name := fun h => hn h.symm
        simp [hk, this]
      · simp [hk]

theorem get?_define (env : Environment) (name key : String) (v : Value) :
    (env.define name v).get? key = if key = name then some v else env.get? key :=
  lookup_rebind name key v env.bindings

@[simp] theorem get?_define_self (env : Environment) (name : String) (v : Value) :
    (env.define name v).get? name = some v := by
  simp [get?_define]

theorem get?_define_of_ne (env : Environment) {name key : String} (v : Value) (h : key ≠ name) :
    (env.define name v).get? key = env.get? key := by
  simp [get?_define, h]

theorem eq_or_of_get?_define {env : Environment} {name key : String} {v w : Value}
    (h : (env.define name v).get? key = some w) : w = v ∨ env.get? key = some w := by
  rw [get?_define] at h
  split at h
  · exact .inl (Option.some.inj h).symm
  · exact .inr h

theorem mem_of_get? {env : Environment} {name : String} {v : Value} (h : env.get? name = some v) :
    (name, v) ∈ env.bindings := by
  obtain ⟨before, after, heq, -⟩ := List.lookup_eq_some_iff.mp h
  rw [heq]
  exact List.mem_append_right before (List.mem_cons_self ..)

/-- The bound names, sorted by code points. -/
def names (env : Environment) : List String := (env.bindings.map (·.1)).mergeSort

end Environment

/-- The functions that new environments start with, each name once. -/
structure Registry where
  functions : List Callable
  deriving Inhabited, Repr

namespace Registry

def get? (r : Registry) (name : String) : Option Callable := r.functions.find? (·.name == name)

/-- Register a function, in place of an older one of its name. -/
def put (r : Registry) (c : Callable) : Registry :=
  if r.functions.any (·.name == c.name) then
    ⟨r.functions.map fun old => if old.name == c.name then c else old⟩
  else ⟨r.functions ++ [c]⟩

/-- A new environment. -/
def environment (r : Registry) : Environment :=
  r.functions.foldl (fun env c => env.define c.name (.callable c)) .empty

/-- Whether a value is the very function that is registered under a name. -/
def holds (r : Registry) (name : String) : Value → Bool
  | .callable c => (r.get? name).any (·.ident == c.ident)
  | _ => false

/-- The bindings that are not untouched registered functions. -/
def userBindings (r : Registry) (env : Environment) : Environment :=
  ⟨env.bindings.filter fun b => !r.holds b.1 b.2⟩

end Registry

end Scriptlet
