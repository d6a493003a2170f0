import Scriptlet.Proofs.Entering
import Scriptlet.Proofs.Literals
import Scriptlet.Proofs.Words
/-!
# Overflow

A tree of sums, differences, products and negations over whole numbers has an exact value, of any
size (`Node.Denotes`). Evaluation folds the result of each operator, but as folding goes through all
of these operators, it comes to what the exact value is folded to, however often a result overflows
on the way. A literal with more digits than can be read stops it, though its value may be small.
Main statement: `value_of_denotes`.
-/

namespace Scriptlet

open Source (IsDigits Level)

/-! ## Exact values -/

/-- The value of a tree of whole numbers, where the operators are those of the integers. The numbers
at its leaves are words. -/
inductive Node.Denotes (env : Environment) : Node → Int → Prop where
  | literal {digits : List Char} {p place : Place} (hdigits : IsDigits digits)
      (hrange : InRange (Decimal.natOfDigits digits)) :
      Denotes env (.tree .constant [.token .integer (String.ofList digits) p] place)
        (Decimal.natOfDigits digits)
  | name {name : String} {x : Int} {p place : Place} (hbound : env.get? name = some (.int x))
      (hrange : InRange x) : Denotes env (.tree .identifier [.token .identifier name p] place) x
  | negate {n : Node} {x : Int} {place : Place} (h : Denotes env n x) :
      Denotes env (.tree .negate [n] place) (-x)
  | sum {m n : Node} {x y : Int} {p place : Place} (hm : Denotes env m x) (hn : Denotes env n y) :
      Denotes env (.tree .additive [m, .token .addOp "+" p, n] place) (x + y)
  | difference {m n : Node} {x y : Int} {p place : Place} (hm : Denotes env m x)
      (hn : Denotes env n y) :
      Denotes env (.tree .additive [m, .token .addOp "-" p, n] place) (x - y)
  | product {m n : Node} {x y : Int} {p place : Place} (hm : Denotes env m x)
      (hn : Denotes env n y) :
      Denotes env (.tree .multiplicative [m, .token .mulOp "*" p, n] place) (x * y)

/-- The texts of the whole numbers in a tree, from left to right. -/
def Node.numerals : Node → List String
  | .token kind text _ => if kind = .integer then [text] else []
  | .tree _ kids _ => numeralsAll kids
where
  numeralsAll : List Node → List String
    | [] => []
    | n :: ns => numerals n ++ numeralsAll ns

/-- The first whole number in a tree that has too many digits to be read. -/
def Node.overlong? (n : Node) : Option String :=
  n.numerals.find? (Decimal.digitLimit < ·.length)

/-- What a tree with an exact value comes to: the word that the value is folded to, unless there is
a number that cannot be read. -/
def Node.folded (n : Node) (x : Int) : Except Stop Value :=
  match n.overlong? with
  | none => .ok (.int (wrap x))
  | some text => .error (.failure ⟨.integerTooLong text.length, none⟩)

theorem overlong?_operator (level : Level) (m n : Node) (op : String) (p place : Place) :
    (Node.tree level.label [m, .token level.tokenKind op p, n] place).overlong? =
      m.overlong?.or n.overlong? := by
  have hkind : level.tokenKind ≠ .integer := by cases level <;> decide
  simp only [Node.overlong?, Node.numerals, Node.numerals.numeralsAll, if_neg hkind,
    List.nil_append, List.append_nil, List.find?_append]

theorem overlong?_negate (n : Node) (place : Place) :
    (Node.tree .negate [n] place).overlong? = n.overlong? := by
  rw [Node.overlong?, Node.numerals, Node.numerals.numeralsAll, Node.numerals.numeralsAll,
    List.append_nil]
  rfl

/-! ## Evaluation -/

section

variable {host : Host} {rounds : Nat} {s : State} {m n : Node} {x y z : Int} {place : Place}

theorem eval_literal {digits : List Char} (h : IsDigits digits)
    (hrange : InRange (Decimal.natOfDigits digits)) (p : Place) :
    let n : Node := .tree .constant [.token .integer (String.ofList digits) p] place
    eval host rounds n s = (n.folded (Decimal.natOfDigits digits), s) := by
  intro n
  have hoverlong : n.overlong? =
      if Decimal.digitLimit < digits.length then some (String.ofList digits) else none := by
    have hnumerals : n.numerals = [String.ofList digits] := rfl
    simp only [Node.overlong?, hnumerals, List.find?_singleton, String.length_ofList,
      decide_eq_true_eq]
  have heval : eval host rounds n =
      Run.located place (Run.ofExcept (literalValue .integer (String.ofList digits))) := by
    rw [eval]
  rw [heval, literalValue_of_digits h, Node.folded, hoverlong]
  by_cases hlong : Decimal.digitLimit < digits.length
  · rw [if_pos hlong, if_pos hlong]
    simp only [String.length_ofList]
    rfl
  · rw [if_neg hlong, if_neg hlong, if_pos hrange]
    simp only [wrap_of_range hrange]
    rfl

/-- A number that cannot be read takes no location. -/
theorem located_folded {r : Run Value} (h : r s = (n.folded x, s)) (place : Place) :
    Run.located place r s = (n.folded x, s) := by
  rw [Run.located, h, Node.folded]
  cases n.overlong? with
  | none => rfl
  | some text => rfl

/-- An operator comes to what is due if both operands do and the folding goes through it. -/
theorem eval_operator (level : Level) {op : String} {p : Place}
    (hm : eval host rounds m s = (m.folded x, s)) (hn : eval host rounds n s = (n.folded y, s))
    (happly : applyOperator level op (.int (wrap x)) (.int (wrap y)) = .ok (.int (wrap z))) :
    let n' : Node := .tree level.label [m, .token level.tokenKind op p, n] place
    eval host rounds n' s = (n'.folded z, s) := by
  intro n'
  have hn' : n'.overlong? = m.overlong?.or n.overlong? := overlong?_operator level m n op p place
  have hoperator : eval host rounds n' = _ := eval_binary host rounds level m n op p place
  rw [hoperator]
  refine located_folded ?_ place
  unfold Node.folded at *
  rw [hn']
  cases hfirst : m.overlong? with
  | some text =>
    rw [hfirst] at hm
    rw [Run.bind_error hm]
    rfl
  | none =>
    rw [hfirst] at hm
    rw [Run.bind_ok hm, Option.none_or]
    cases hsecond : n.overlong? with
    | some text =>
      rw [hsecond] at hn
      rw [Run.bind_error hn]
    | none =>
      rw [hsecond] at hn
      rw [Run.bind_ok hn, happly]
      rfl

theorem eval_negate (h : eval host rounds n s = (n.folded x, s)) :
    let n' : Node := .tree .negate [n] place
    eval host rounds n' s = (n'.folded (-x), s) := by
  intro n'
  have hn' : n'.overlong? = n.overlong? := overlong?_negate n place
  have hnegate : eval host rounds n' = Run.located place (do
      let v ← eval host rounds n
      Run.ofExcept (negate v)) := by
    rw [eval]
  rw [hnegate]
  refine located_folded ?_ place
  unfold Node.folded at *
  rw [hn']
  cases hfirst : n.overlong? with
  | some text =>
    rw [hfirst] at h
    rw [Run.bind_error h]
  | none =>
    rw [hfirst] at h
    rw [Run.bind_ok h, negate, wrap_neg_wrap]
    rfl

/-- What a tree comes to depends on its exact value alone, if all of its numbers can be read. -/
theorem eval_of_denotes (h : n.Denotes s.env x) : eval host rounds n s = (n.folded x, s) := by
  induction h with
  | literal hdigits hrange => exact eval_literal hdigits hrange _
  | @name name x p place hbound hrange =>
    have hlook : lookUp name s = (.ok (.int x), s) := by
      rw [lookUp, Run.bind_ok (r := Run.environment) rfl, hbound]
      rfl
    rw [eval, expectName, pure_bind, Run.located, hlook]
    simp only [Node.folded, wrap_of_range hrange]
    rfl
  | negate _ ih => exact eval_negate ih
  | sum _ _ ihm ihn => exact eval_operator .sum ihm ihn (by rw [← wrap_add_wrap]; rfl)
  | difference _ _ ihm ihn =>
    exact eval_operator .sum ihm ihn (by rw [← wrap_sub_wrap]; rfl)
  | product _ _ ihm ihn =>
    exact eval_operator .product ihm ihn (by rw [← wrap_mul_wrap]; rfl)

theorem eval_of_short (h : n.Denotes s.env x) (hshort : n.overlong? = none) :
    eval host rounds n s = (.ok (.int (wrap x)), s) := by
  rw [eval_of_denotes h, Node.folded, hshort]

/-- A tree of sums, differences, products and negations over words has a value wherever its names
are bound, and it is the word that the exact value is folded to. Two trees with the same exact value
thus have the same value. The one thing in the way is a literal that is too long to be read: the
first of them is what the evaluation fails with. -/
theorem value_of_denotes {env : Environment} (h : n.Denotes env x) (host : Host) (rounds : Nat)
    (log : List Event) :
    (n.overlong? = none →
        eval host rounds n ⟨env, log⟩ = (.ok (.int (wrap x)), ⟨env, log⟩) ∧
          ∀ m env', m.Denotes env' x → m.overlong? = none →
            (eval host rounds m ⟨env', log⟩).1 = (eval host rounds n ⟨env, log⟩).1) ∧
      ∀ text, n.overlong? = some text →
        eval host rounds n ⟨env, log⟩ =
          (.error (.failure ⟨.integerTooLong text.length, none⟩), ⟨env, log⟩) := by
  refine ⟨fun hshort => ⟨eval_of_short (s := ⟨env, log⟩) h hshort, fun m env' hm hshort' => ?_⟩,
    fun text hlong => ?_⟩
  · rw [eval_of_short (s := ⟨env, log⟩) h hshort, eval_of_short (s := ⟨env', log⟩) hm hshort']
  · rw [eval_of_denotes (s := ⟨env, log⟩) h, Node.folded, hlong]

/-- The largest word plus itself, with the sign changed, times itself, minus itself: every operator
overflows. -/
theorem value_of_denotes_largest :
    let env := Environment.empty.define "x" (.int intMax)
    let literal : Node :=
      .tree .constant [.token .integer "9223372036854775807" .unknown] .unknown
    let name : Node := .tree .identifier [.token .identifier "x" .unknown] .unknown
    let n : Node := .tree .additive [.tree .multiplicative [.tree .negate
      [.tree .additive [literal, .token .addOp "+" .unknown, name] .unknown] .unknown,
        .token .mulOp "*" .unknown, name] .unknown, .token .addOp "-" .unknown, literal] .unknown
    let x := -(intMax + intMax) * intMax - intMax
    n.Denotes env x ∧ n.overlong? = none ∧ ¬InRange x ∧ ∀ host rounds log,
      eval host rounds n ⟨env, log⟩ = (.ok (.int (wrap x)), ⟨env, log⟩) := by
  intro env literal name n x
  have hliteral : literal.Denotes env intMax :=
    @Node.Denotes.literal env "9223372036854775807".toList _ _
      ⟨by decide, List.all_eq_true.mp rfl⟩ (by decide)
  have hname : name.Denotes env intMax :=
    .name (Environment.get?_define_self _ _ _) (by decide)
  have h : n.Denotes env x := .difference (.product (.negate (.sum hliteral hname)) hname) hliteral
  have hshort : n.overlong? = none := by decide
  exact ⟨h, hshort, by decide, fun host rounds log =>
    ((value_of_denotes h host rounds log).1 hshort).1⟩

/-- A one with so many noughts before it that it cannot be read. -/
theorem value_of_denotes_noughts :
    let digits := List.replicate 4300 '0' ++ ['1']
    let n : Node := .tree .constant [.token .integer (String.ofList digits) .unknown] .unknown
    n.Denotes .empty 1 ∧ ∀ host rounds log, eval host rounds n ⟨.empty, log⟩ =
      (.error (.failure ⟨.integerTooLong 4301, none⟩), ⟨.empty, log⟩) := by
  intro digits n
  have hlength : digits.length = 4301 := by
    rw [List.length_append, List.length_replicate]
    rfl
  have hdigits : IsDigits digits := by
    refine ⟨List.append_ne_nil_of_right_ne_nil _ (List.cons_ne_nil _ _), ?_⟩
    refine List.forall_mem_append.mpr ⟨fun c hc => ?_, List.forall_mem_singleton.mpr rfl⟩
    rw [List.eq_of_mem_replicate hc]
    rfl
  have hone : (Decimal.natOfDigits digits : Int) = 1 := by
    rw [natOfDigits_noughts]
    rfl
  have hrange : InRange (Decimal.natOfDigits digits) := by
    rw [hone]
    decide
  refine ⟨hone ▸ .literal hdigits hrange, fun host rounds log => ?_⟩
  have hliteral : eval host rounds n =
      Run.located .unknown (Run.ofExcept (literalValue .integer (String.ofList digits))) := by
    rw [eval]
  have hlong : Decimal.digitLimit < digits.length := by
    rw [hlength]
    decide
  rw [hliteral, literalValue_of_digits hdigits, if_pos hlong, hlength]
  rfl

end

end Scriptlet
