import Scriptlet.Proofs.Demands
import Scriptlet.Proofs.Entering
/-!
# The forms of nodes

What the evaluation of any node is, hand-made nodes included. A node does not fit its label, looks
up a name, is a literal, or has one of seven forms whose children are evaluated. Main statements:
these are all (`form`), and what passes from the children that are evaluated to the node holds of
every node (`operands_induction`).
-/

namespace Scriptlet

open Source (Keyword Level)

/-- The forms of nodes. Children are evaluated in the last seven only. -/
inductive Form : Node → Prop where
  | misfit {n : Node} {f : Fault} (hf : n.misfit? = some f)
      (h : ∀ host rounds, eval host rounds n = Run.located n.place (Run.fail f)) : Form n
  | name {n : Node} {p : Place} (text : String)
      (hn : n = .token .identifier text p ∨
        ∃ place, n = .tree .identifier [.token .identifier text p] place)
      (h : ∀ host rounds, eval host rounds n = Run.located n.place (lookUp text)) : Form n
  | literal {n : Node} {kind : TokenKind} {text : String} {p : Place}
      (hn : n = .token kind text p ∧ kind ≠ .identifier ∨
        ∃ place, n = .tree .constant [.token kind text p] place)
      (h : ∀ host rounds, eval host rounds n =
        Run.located n.place (Run.ofExcept (literalValue kind text))) : Form n
  | statements {label : Label} (hl : label = .program ∨ label = .block) (kids : List Node)
      (place : Place) : Form (.tree label kids place)
  | assignment (name : String) (p : Place) (source : Node) (place : Place) :
      Form (.tree .assignment [.token .identifier name p, source] place)
  | call (name : String) (p : Place) (args : List Node) (place : Place) :
      Form (.tree .functionCall (.token .identifier name p :: args) place)
  | negate (operand : Node) (place : Place) : Form (.tree .negate [operand] place)
  | binary (level : Level) (lhs rhs : Node) (op : String) (p place : Place) :
      Form (.tree level.label [lhs, .token level.tokenKind op p, rhs] place)
  | conditional (w : Keyword) (word : String) (c b : Node) {otherwise : List Node} (p place : Place)
      (single : otherwise.length ≤ 1) :
      Form (.tree w.label (.token w.tokenKind word p :: c :: b :: otherwise) place)
  | elseBlock (body : Node) (place : Place) : Form (.tree .elseBlock [body] place)

theorem expectName_cases (n : Node) (d : Defect) :
    (∃ text p, n = .token .identifier text p) ∨
      n.kind?.any [.identifier].contains = false ∧ expectName n d = Run.fail (.malformed d) := by
  cases n with
  | token kind text p =>
    cases kind with
    | identifier => exact .inl ⟨text, p, rfl⟩
    | _ => exact .inr ⟨rfl, rfl⟩
  | tree => exact .inr ⟨rfl, rfl⟩

theorem expectToken_cases (n : Node) (kinds : List TokenKind) :
    (∃ kind text p, kind ∈ kinds ∧ n = .token kind text p) ∨
      n.kind?.any kinds.contains = false ∧
        expectToken n kinds = Run.fail (.malformed (.wrongToken kinds n)) := by
  cases n with
  | token kind text p =>
    by_cases h : kinds.contains kind
    · exact .inl ⟨kind, text, p, List.contains_iff_mem.mp h, rfl⟩
    · exact .inr ⟨Bool.eq_false_iff.mpr h, if_neg h⟩
  | tree => exact .inr ⟨rfl, rfl⟩

theorem fail_bind {α β : Type} (f : Fault) (k : α → Run β) : Run.fail f >>= k = Run.fail f := rfl

section

variable {host : Host} {rounds : Nat} {place : Place}

theorem eval_call_of_misfit {callee : Node} {args : List Node}
    (h : expectName callee .calleeName = Run.fail (.malformed .calleeName)) :
    eval host rounds (.tree .functionCall (callee :: args) place) =
      Run.located place (Run.fail (.malformed .calleeName)) := by
  rw [eval, h, fail_bind]

theorem eval_binary_of_misfit {level : Level} {lhs op rhs : Node}
    (h : expectToken op [level.tokenKind] =
      Run.fail (.malformed (.wrongToken [level.tokenKind] op))) :
    eval host rounds (.tree level.label [lhs, op, rhs] place) =
      Run.located place (Run.fail (.malformed (.wrongToken [level.tokenKind] op))) := by
  cases level with
  | comparison =>
    rw [Level.tokenKind] at h
    rw [Level.label, eval, h, fail_bind]
    rfl
  | sum | product =>
    rw [Level.tokenKind] at h
    rw [Level.label, eval, evalArithmetic, h, fail_bind]
    rfl

end

section

variable (kids : List Node) (place : Place)

theorem form_assignment : Form (.tree .assignment kids place) := by
  match kids with
  | [target, source] =>
    rcases expectName_cases target .assignmentTarget with ⟨name, p, rfl⟩ | ⟨hkind, h⟩
    · exact .assignment name p source place
    · refine .misfit (misfit?_of_key rfl rfl rfl hkind) fun host rounds => ?_
      rw [eval, h, fail_bind]
      rfl
  | [] | [_] | _ :: _ :: _ :: _ =>
    exact .misfit (misfit?_of_count rfl rfl) fun host rounds => eval.eq_def ..

theorem form_functionCall : Form (.tree .functionCall kids place) := by
  match kids with
  | callee :: args =>
    rcases expectName_cases callee .calleeName with ⟨name, p, rfl⟩ | ⟨hkind, h⟩
    · exact .call name p args place
    · exact .misfit (misfit?_of_key rfl rfl rfl hkind) fun host rounds => eval_call_of_misfit h
  | [] =>
    exact .misfit (misfit?_of_count rfl rfl) fun host rounds => eval.eq_def ..

theorem form_identifier : Form (.tree .identifier kids place) := by
  match kids with
  | [target] =>
    rcases expectName_cases target .referenceName with ⟨name, p, rfl⟩ | ⟨hkind, h⟩
    · refine .name name (.inr ⟨place, rfl⟩) fun host rounds => ?_
      rw [eval, expectName]
      rfl
    · refine .misfit (misfit?_of_key rfl rfl rfl hkind) fun host rounds => ?_
      rw [eval, h, fail_bind]
      rfl
  | [] | _ :: _ :: _ =>
    exact .misfit (misfit?_of_count rfl rfl) fun host rounds => eval.eq_def ..

theorem form_constant : Form (.tree .constant kids place) := by
  match kids with
  | [.token kind text p] =>
    refine .literal (.inr ⟨place, rfl⟩) fun host rounds => ?_
    rw [eval]
    rfl
  | [.tree ..] =>
    exact .misfit (misfit?_of_key rfl rfl rfl rfl) fun host rounds => eval.eq_def ..
  | [] | .token .. :: _ :: _ | .tree .. :: _ :: _ =>
    exact .misfit (misfit?_of_count rfl rfl) fun host rounds => eval.eq_def ..

theorem form_negate : Form (.tree .negate kids place) := by
  match kids with
  | [operand] => exact .negate operand place
  | [] | _ :: _ :: _ =>
    exact .misfit (misfit?_of_count rfl rfl) fun host rounds => eval.eq_def ..

theorem form_elseBlock : Form (.tree .elseBlock kids place) := by
  match kids with
  | [body] => exact .elseBlock body place
  | [] | _ :: _ :: _ =>
    exact .misfit (misfit?_of_count rfl rfl) fun host rounds => eval.eq_def ..

theorem form_binary (level : Level) : Form (.tree level.label kids place) := by
  have hdemand := demand_binary level
  by_cases h : ∃ lhs operator rhs, kids = [lhs, operator, rhs]
  · obtain ⟨lhs, operator, rhs, rfl⟩ := h
    rcases expectToken_cases operator [level.tokenKind] with ⟨kind, op, p, hk, rfl⟩ | ⟨hkind, h⟩
    · rw [List.mem_singleton.mp hk]
      exact .binary level lhs rhs op p place
    · refine .misfit (f := .malformed (.wrongToken [level.tokenKind] operator)) ?_
        fun host rounds => eval_binary_of_misfit h
      exact misfit?_of_key (by rw [hdemand]; rfl) (congrArg Demand.key? hdemand) rfl hkind
  · have hkids : ∀ lhs operator rhs, kids = [lhs, operator, rhs] → False :=
      fun lhs operator rhs e => h ⟨lhs, operator, rhs, e⟩
    have hlength : kids.length ≠ 3 := by
      intro e
      match kids, e with
      | [lhs, operator, rhs], _ => exact hkids lhs operator rhs rfl
    refine .misfit (f := .malformed (.binary kids.length)) ?_ fun host rounds => ?_
    · exact misfit?_of_count (congrArg Demand.count? hdemand) (beq_false_of_ne hlength)
    · cases level with
      | comparison =>
        rw [Level.label, eval]
        · rfl
        · exact hkids
      | sum | product =>
        rw [Level.label, eval, evalArithmetic]
        · rfl
        · exact hkids

theorem form_conditional (w : Keyword) : Form (.tree w.label kids place) := by
  have hdemand := demand_conditional w
  match kids with
  | keyword :: c :: b :: otherwise =>
    by_cases hlong : 1 < otherwise.length
    · refine .misfit (f := .malformed (.conditional w.label)) ?_ fun host rounds => ?_
      · refine misfit?_of_count (congrArg Demand.count? hdemand) ?_
        simp only [List.length_cons, Bool.or_eq_false_iff, beq_eq_false_iff_ne]
        omega
      · cases w <;> · rw [Keyword.label, eval, if_pos hlong]; rfl
    · rcases expectToken_cases keyword (wordKinds w) with ⟨kind, word, p, hk, rfl⟩ | ⟨hkind, h⟩
      · obtain ⟨v, hv, rfl⟩ := mem_wordKinds hk
        rw [← hv]
        exact .conditional v word c b p place (Nat.not_lt.mp hlong)
      · refine .misfit (f := .malformed (.wrongToken (wordKinds w) keyword)) ?_
          fun host rounds => ?_
        · refine misfit?_of_key ?_ (congrArg Demand.key? hdemand) rfl hkind
          rw [miscount?_eq_none, hdemand]
          rintro count ⟨rfl⟩
          simp only [List.length_cons, Bool.or_eq_true, beq_iff_eq]
          omega
        · cases w <;>
          · rw [wordKinds] at h
            rw [Keyword.label, eval, if_neg hlong, h, fail_bind]
            rfl
  | [] | [_] | [_, _] =>
    refine .misfit (misfit?_of_count (congrArg Demand.count? hdemand) rfl) fun host rounds => ?_
    cases w <;> exact eval.eq_def ..

end

/-- Every node has a form. -/
theorem form (n : Node) : Form n := by
  cases n with
  | token kind text place =>
    cases kind with
    | identifier =>
      refine .name text (.inl rfl) fun host rounds => ?_
      rw [eval]
      rfl
    | _ =>
      refine .literal (.inl ⟨rfl, by simp⟩) fun host rounds => ?_
      rw [eval]
      rfl
  | tree label kids place =>
    cases label with
    | program => exact .statements (.inl rfl) kids place
    | block => exact .statements (.inr rfl) kids place
    | assignment => exact form_assignment kids place
    | functionCall => exact form_functionCall kids place
    | identifier => exact form_identifier kids place
    | constant => exact form_constant kids place
    | additive => exact form_binary kids place .sum
    | multiplicative => exact form_binary kids place .product
    | comparison => exact form_binary kids place .comparison
    | negate => exact form_negate kids place
    | ifBlock => exact form_conditional kids place .ifWord
    | whileBlock => exact form_conditional kids place .whileWord
    | elseBlock => exact form_elseBlock kids place
    | other name =>
      refine .misfit (misfit?_of_count rfl rfl) fun host rounds => ?_
      rw [eval]
      rfl

/-! ## Nodes that do not fit -/

theorem literalValue_of_not_mem {kind : TokenKind} (h : kind ∉ literalKinds) (raw : String) :
    literalValue kind raw = .error (.unsupportedLiteral kind raw) := by
  cases kind with
  | integer | float | string | trueWord | falseWord | nullWord => exact absurd (by decide) h
  | _ => rfl

/-- A literal fits if it is one of the kinds that have a meaning. -/
theorem misfit?_literal {n : Node} {kind : TokenKind} {text : String} {p : Place}
    (hn : n = .token kind text p ∧ kind ≠ .identifier ∨
      ∃ place, n = .tree .constant [.token kind text p] place) :
    n.misfit? = if kind ∈ literalKinds then none else some (.unsupportedLiteral kind text) := by
  rcases hn with ⟨rfl, hkind⟩ | ⟨place, rfl⟩
  · simp [Node.misfit?, hkind]
  · by_cases h : kind ∈ literalKinds
    · rw [if_pos h, misfit?_eq_none_iff]
      refine ⟨?_, ?_⟩
      · rintro count ⟨rfl⟩
        rfl
      · rintro key ⟨rfl⟩
        exact ⟨_, kind, rfl, rfl, h⟩
    · have hkind : (Node.token kind text p).kind?.any literalKinds.contains = false :=
        Bool.eq_false_iff.mpr (mt List.contains_iff_mem.mp h)
      have hmisfit : (Node.tree .constant [.token kind text p] place).misfit? =
          some (Key.literal.fault (.token kind text p)) := misfit?_of_key rfl rfl rfl hkind
      rw [if_neg h, hmisfit]
      rfl

/-- To evaluate a node that does not meet what its label requires is to fail, and nothing else. -/
theorem eval_of_misfit? {n : Node} {f : Fault} (h : n.misfit? = some f) (host : Host)
    (rounds : Nat) : eval host rounds n = Run.located n.place (Run.fail f) := by
  have habsurd (hnone : n.misfit? = none) :
      eval host rounds n = Run.located n.place (Run.fail f) := by
    rw [hnone] at h
    cases h
  cases form n with
  | misfit hf heval =>
    obtain rfl := Option.some.inj (hf.symm.trans h)
    exact heval host rounds
  | name text hn _ => rcases hn with rfl | ⟨place, rfl⟩ <;> exact habsurd rfl
  | @literal _ kind text p hn heval =>
    rw [misfit?_literal hn] at h
    split at h
    · cases h
    next hkind =>
      rw [heval, literalValue_of_not_mem hkind, ← Option.some.inj h]
      rfl
  | statements hl kids place => exact habsurd (misfit?_statements hl kids place)
  | assignment | call | negate | elseBlock => exact habsurd rfl
  | binary level lhs rhs op p place => exact habsurd (misfit?_binary level lhs rhs op p place)
  | conditional w word c b p place single =>
    exact habsurd (misfit?_conditional w word c b p place single)

/-! ## Induction -/

theorem mem_kids_of_operands {n m : Node} (h : m ∈ operands n) : m ∈ n.kids := by
  unfold operands at h
  split at h <;> simp_all [Node.kids]
  all_goals grind

/-- Induction over a node and the children that its evaluation may evaluate. -/
theorem operands_induction {P : Node → Prop} (h : ∀ n, (∀ m ∈ operands n, P m) → P n) (n : Node) :
    P n := by
  induction hsize : sizeOf n using Nat.strongRecOn generalizing n with
  | ind size ih =>
    refine h n fun m hm => ih (sizeOf m) ?_ m rfl
    cases n with
    | token kind text place => exact absurd (mem_kids_of_operands hm) List.not_mem_nil
    | tree label kids place =>
      have hlt := List.sizeOf_lt_of_mem (mem_kids_of_operands hm)
      simp only [Node.kids, Node.tree.sizeOf_spec] at hlt hsize
      omega

end Scriptlet
