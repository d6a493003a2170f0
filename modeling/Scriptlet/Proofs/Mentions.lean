import Scriptlet.Proofs.Keeping
/-!
# Names in trees

Which names a tree mentions, and as what: as the target of an assignment, as a reference, or as the
function of a call. Only children that evaluation may evaluate count, so a name that is not
mentioned is never looked up and never bound. Main statements: a step that binds a name binds one
that the tree mentions as a target (`keeps_of_targets`), and any other name keeps its value
(`keeps_get?`). The mentions of a tree can be listed (`mem_mentions`).
-/

namespace Scriptlet

inductive Role where
  | target | reference | callee
  deriving DecidableEq, Repr

/-- A name occurs in a node, or in a child that its evaluation may evaluate. -/
inductive Node.Mentions : Node → Role → String → Prop where
  | token {name : String} {p : Place} : Mentions (.token .identifier name p) .reference name
  | reference {name : String} {p place : Place} :
      Mentions (.tree .identifier [.token .identifier name p] place) .reference name
  | target {name : String} {source : Node} {p place : Place} :
      Mentions (.tree .assignment [.token .identifier name p, source] place) .target name
  | callee {name : String} {args : List Node} {p place : Place} :
      Mentions (.tree .functionCall (.token .identifier name p :: args) place) .callee name
  | inside {n m : Node} {role : Role} {name : String} (hm : m ∈ operands n)
      (h : Mentions m role name) : Mentions n role name

/-! ## Targets -/

section

variable {host : Host} {rounds : Nat} {n : Node} {I : State → Prop} {V : Value → Prop}

/-- What every step keeps, a node keeps; only its own targets are ever bound. -/
theorem keeps_of_targets (k : Kept host I V)
    (hbind : ∀ {s : State} {name v}, n.Mentions .target name → I s → V v → I (s.assign name v)) :
    Keeps host rounds I V n := by
  induction n using operands_induction with
  | h n ih =>
    intro s hs
    have hn : (eval host rounds n).Lands s (fun v t => I t ∧ V v)
        fun f t => ∃ g : Failure, f = g.leaving n.place ∧ I t := by
      refine lands_of_enters k hs (fun m t he ht => ?_) ?_ fun _ _ _ ht => ht
      · have hm := mem_operands_of_enters host rounds he
        exact ih m hm (fun hname => hbind (.inside hm hname)) t ht
      · rintro name p source place rfl v t - ht hv
        exact hbind .target ht hv
    refine hn.mono (fun _ _ _ ht => ht) ?_
    rintro _ t - ⟨_, -, ht⟩
    exact ht

/-- A name that is no target keeps its value. -/
theorem keeps_get? {name : String} {v : Option Value} (h : ¬ n.Mentions .target name) :
    Keeps host rounds (fun s => s.env.get? name = v) (fun _ => True) n := by
  refine keeps_of_targets (kept_of_events fun _ _ _ hs => hs) fun {s key w} hkey hs _ => ?_
  have hne : name ≠ key := by
    rintro rfl
    exact h hkey
  exact (Environment.get?_define_of_ne s.env w hne).trans hs

end

/-! ## The list of mentions -/

/-- The name that a tree of a label begins with, with its role. -/
def leadingMention (label : Label) (kids : List Node) : List (Role × String) :=
  match label, kids with
  | .assignment, .token .identifier name _ :: _ => [(.target, name)]
  | .functionCall, .token .identifier name _ :: _ => [(.callee, name)]
  | _, _ => []

mutual

/-- The names in a node, with their roles. A name in front of a tree is listed as a reference,
too. -/
def Node.mentions : Node → List (Role × String)
  | .token .identifier name _ => [(.reference, name)]
  | .token .. => []
  | .tree label kids _ => leadingMention label kids ++ mentionsOf kids

def mentionsOf : List Node → List (Role × String)
  | [] => []
  | n :: ns => n.mentions ++ mentionsOf ns

end

theorem mem_mentionsOf {m : Node} {ns : List Node} (hm : m ∈ ns) {x : Role × String}
    (hx : x ∈ m.mentions) : x ∈ mentionsOf ns := by
  induction ns with
  | nil => exact absurd hm List.not_mem_nil
  | cons n ns ih =>
    rw [mentionsOf]
    rcases List.mem_cons.mp hm with rfl | hm
    · exact List.mem_append_left _ hx
    · exact List.mem_append_right _ (ih hm)

/-- Whatever a node mentions is in its list. -/
theorem mem_mentions {n : Node} {role : Role} {name : String} (h : n.Mentions role name) :
    (role, name) ∈ n.mentions := by
  induction h with
  | token | reference | target | callee => simp [Node.mentions, mentionsOf, leadingMention]
  | @inside n m _ _ hm _ ih =>
    cases n with
    | token => exact absurd (mem_kids_of_operands hm) List.not_mem_nil
    | tree label kids place =>
      rw [Node.mentions]
      exact List.mem_append_right _ (mem_mentionsOf (mem_kids_of_operands hm) ih)

end Scriptlet
