import Scriptlet.Proofs.Choosing
import Scriptlet.Proofs.Kinds
import Scriptlet.Proofs.Rendering
/-!
# Chains of sums

Terms with a `+` between any two are added from the left to the right, and the sign changes its
meaning on the way: as long as there are numbers only, it adds; once there is a text, all that
follows is written behind it, of whatever kind it is. A value that is neither number nor text breaks
a chain, and nothing behind it is evaluated. Main statements: `chain_sums`, where `Host.Sums` says
what a chain comes to and `Host.Tour` what it evaluates.
-/

namespace Scriptlet

open Run
open Source (Expr Span)

/-! ## Values -/

namespace Value

def plus? : Value → Value → Option Value
  | .int a, .int b => some (.int (wrap (a + b)))
  | .int a, .float y => some (.float (Float.ofInt a + y))
  | .float x, .int b => some (.float (x + Float.ofInt b))
  | .float x, .float y => some (.float (x + y))
  | _, _ => none

/-- The sum of some values, from the left to the right. A single value is its own sum, whatever it
is; of more than one, all have to be numbers. -/
def total? : List Value → Option Value
  | [] => none
  | v :: vs => vs.foldlM plus? v

def displayAll (vs : List Value) : String := String.join (vs.map display)

/-- What the values in front of a text bring to it: their sum as a text, or nothing if there are
none. -/
inductive Leads : List Value → String → Prop where
  | absent : Leads [] ""
  | sum {vs : List Value} {w : Value} (h : total? vs = some w) : Leads vs w.display

end Value

section

variable {a b v w : Value} {vs : List Value}

theorem number_of_plus? (h : a.plus? b = some w) :
    a.kind.isNumber = true ∧ b.kind.isNumber = true ∧ w.kind.isNumber = true := by
  unfold Value.plus? at h
  split at h <;> cases h <;> exact ⟨rfl, rfl, rfl⟩

theorem near_of_plus? (h : a.plus? b = some w) : w.Near := by
  refine near_of_range fun n hn => ?_
  unfold Value.plus? at h
  split at h <;> cases h <;> cases hn
  exact wrap_range _

theorem exists_plus? (ha : a.kind.isNumber = true) (hb : b.kind.isNumber = true) :
    ∃ w, a.plus? b = some w := by
  cases a with
  | int | float =>
    cases b with
    | int | float => exact ⟨_, rfl⟩
    | null | string | bool | callable => cases hb
  | null | string | bool | callable => cases ha

theorem not_number_of_string (h : v.kind = .string) : ¬ v.kind.isNumber = true := by
  rw [h]
  exact nofun

theorem add_of_plus? (ha : a.Near) (hb : b.Near) (h : a.plus? b = some w) :
    applyArithmetic "+" a b = .ok w := by
  have hfloat {n : Int} (hn : (Value.int n).Near) : nearestFloat n = .ok (Float.ofInt n) :=
    if_pos (hn n rfl)
  unfold Value.plus? at h
  split at h <;> cases h
  next => rfl
  next => simp only [applyArithmetic, ArithOp.ofText?, Value.asFloat?, hfloat ha]; rfl
  next => simp only [applyArithmetic, ArithOp.ofText?, Value.asFloat?, hfloat hb]; rfl
  next => rfl

theorem add_of_not_numbers (ha : a.Near) (hb : b.Near)
    (h : ¬(a.kind.isNumber = true ∧ b.kind.isNumber = true)) :
    applyArithmetic "+" a b =
      if a.kind = .string ∨ b.kind = .string then .ok (.string (a.display ++ b.display))
      else .error (.operands "+" a.kind b.kind) := by
  rw [applyArithmetic_of_not_numbers ha hb rfl h]
  simp only [true_and]

theorem add_text (ha : a.Near) (hb : b.Near) (h : a.kind = .string ∨ b.kind = .string) :
    applyArithmetic "+" a b = .ok (.string (a.display ++ b.display)) := by
  rw [add_of_not_numbers ha hb, if_pos h]
  rintro ⟨hna, hnb⟩
  rcases h with h | h
  · exact not_number_of_string h hna
  · exact not_number_of_string h hnb

theorem add_broken (ha : a.Near) (hb : b.Near) (h : a.plus? b = none) (hsa : a.kind ≠ .string)
    (hsb : b.kind ≠ .string) : applyArithmetic "+" a b = .error (.operands "+" a.kind b.kind) := by
  rw [add_of_not_numbers ha hb, if_neg (not_or.mpr ⟨hsa, hsb⟩)]
  rintro ⟨hna, hnb⟩
  obtain ⟨w, hw⟩ := exists_plus? hna hnb
  cases h.symm.trans hw

theorem near_string (s : String) : Value.Near (.string s) := nofun

/-- Numbers are added one after the other. -/
theorem foldlM_add (hv : v.Near) (hvs : ∀ u ∈ vs, u.Near) (h : vs.foldlM Value.plus? v = some w) :
    vs.foldlM (applyArithmetic "+") v = .ok w ∧ w.Near := by
  induction vs generalizing v with
  | nil =>
    cases h
    exact ⟨rfl, hv⟩
  | cons u vs ih =>
    obtain ⟨hu, hvs⟩ := List.forall_mem_cons.mp hvs
    rw [List.foldlM_cons] at h
    obtain ⟨x, hx, h⟩ := Option.bind_eq_some_iff.mp h
    obtain ⟨hfold, hw⟩ := ih (near_of_plus? hx) hvs h
    refine ⟨?_, hw⟩
    rw [List.foldlM_cons, add_of_plus? hv hu hx]
    exact hfold

/-- Whatever follows a text is written behind it. -/
theorem foldlM_text (hvs : ∀ u ∈ vs, u.Near) (text : String) :
    vs.foldlM (applyArithmetic "+") (.string text) =
      .ok (.string (text ++ Value.displayAll vs)) := by
  induction vs generalizing text with
  | nil => simp [Value.displayAll]; rfl
  | cons u vs ih =>
    obtain ⟨hu, hvs⟩ := List.forall_mem_cons.mp hvs
    have hjoin : Value.displayAll (u :: vs) = u.display ++ Value.displayAll vs := by
      simp [Value.displayAll, String.join_cons]
    rw [List.foldlM_cons, add_text (near_string text) hu (.inl rfl), hjoin, ← String.append_assoc]
    exact ih hvs _

/-- The values up to a text and those behind it, added from the left to the right. -/
theorem foldlM_lead {front back : List Value} {text lead : String}
    (near : ∀ v ∈ front ++ .string text :: back, v.Near) (hlead : Value.Leads front lead) :
    ∃ v us, front ++ .string text :: back = v :: us ∧
      us.foldlM (applyArithmetic "+") v =
        .ok (.string (lead ++ text ++ Value.displayAll back)) := by
  have hback : ∀ u ∈ back, u.Near := fun u hu =>
    near u (List.mem_append_right _ (List.mem_cons_of_mem _ hu))
  cases hlead with
  | absent => exact ⟨_, back, rfl, by rw [String.empty_append]; exact foldlM_text hback text⟩
  | @sum _ w h =>
    cases front with
    | nil => cases h
    | cons v us =>
      have hfront := (List.forall_mem_append.mp near).1
      obtain ⟨hv, hus⟩ := List.forall_mem_cons.mp hfront
      obtain ⟨hfold, hw⟩ := foldlM_add hv hus h
      refine ⟨v, us ++ .string text :: back, rfl, ?_⟩
      rw [List.foldlM_append, hfold]
      change (Value.string text :: back).foldlM (applyArithmetic "+") w = _
      rw [List.foldlM_cons, add_text hw (near_string text) (.inr rfl)]
      exact foldlM_text hback _

theorem total?_concat (h : Value.total? vs = some w) (v : Value) :
    Value.total? (vs ++ [v]) = w.plus? v := by
  cases vs with
  | nil => cases h
  | cons u vs =>
    rw [Value.total?] at h
    rw [List.cons_append, Value.total?, List.foldlM_append, h]
    change [v].foldlM Value.plus? w = _
    rw [List.foldlM_cons]
    cases w.plus? v <;> rfl

theorem numbers_of_foldlM (h : vs.foldlM Value.plus? v = some w) :
    vs = [] ∧ w = v ∨ (∀ u ∈ v :: vs, u.kind.isNumber = true) ∧ w.kind.isNumber = true := by
  induction vs generalizing v with
  | nil =>
    cases h
    exact .inl ⟨rfl, rfl⟩
  | cons u vs ih =>
    rw [List.foldlM_cons] at h
    obtain ⟨x, hx, h⟩ := Option.bind_eq_some_iff.mp h
    obtain ⟨hv, hu, hx⟩ := number_of_plus? hx
    rcases ih h with ⟨rfl, rfl⟩ | ⟨hall, hw⟩
    · exact .inr ⟨List.forall_mem_cons.mpr ⟨hv, List.forall_mem_singleton.mpr hu⟩, hx⟩
    · have hvs := (List.forall_mem_cons.mp hall).2
      exact .inr ⟨List.forall_mem_cons.mpr ⟨hv, List.forall_mem_cons.mpr ⟨hu, hvs⟩⟩, hw⟩

/-- There is no text in a sum, unless it is one text by itself. -/
theorem texts_of_total? (h : Value.total? vs = some w) :
    (∃ text, vs = [.string text]) ∨ w.kind ≠ .string ∧ ∀ v ∈ vs, v.kind ≠ .string := by
  have hnumber {u : Value} (hu : u.kind.isNumber = true) : u.kind ≠ .string :=
    fun htext => not_number_of_string htext hu
  cases vs with
  | nil => cases h
  | cons v vs =>
    rcases numbers_of_foldlM h with ⟨rfl, rfl⟩ | ⟨hall, hw⟩
    · cases w with
      | string text => exact .inl ⟨text, rfl⟩
      | null | int | float | bool | callable =>
        exact .inr ⟨nofun, List.forall_mem_singleton.mpr nofun⟩
    · exact .inr ⟨hnumber hw, fun u hu => hnumber (hall u hu)⟩

/-- Some values have a sum, or there is a first text and what is in front of it has a sum, or there
is a first value that cannot be added. -/
theorem sum_cases (hne : vs ≠ []) :
    (∃ w, Value.total? vs = some w) ∨
      (∃ front text back lead, vs = front ++ .string text :: back ∧
        (∀ v ∈ front, v.kind ≠ .string) ∧ Value.Leads front lead) ∨
      ∃ front v back w, vs = front ++ v :: back ∧ Value.total? front = some w ∧
        w.plus? v = none ∧ w.kind ≠ .string ∧ v.kind ≠ .string := by
  induction vs using List.reverseRecOn with
  | nil => exact absurd rfl hne
  | append_singleton vs v ih =>
    by_cases hnil : vs = []
    · subst hnil
      exact .inl ⟨v, rfl⟩
    rcases ih hnil with ⟨w, hw⟩ | ⟨front, text, back, lead, rfl, hfront, hlead⟩ |
      ⟨front, u, back, w, rfl, hbroken⟩
    · cases hplus : w.plus? v with
      | some x => exact .inl ⟨x, (total?_concat hw v).trans hplus⟩
      | none =>
        rcases texts_of_total? hw with ⟨text, rfl⟩ | ⟨hwtext, hfront⟩
        · exact .inr (.inl ⟨[], text, [v], "", rfl, List.forall_mem_nil _, .absent⟩)
        · by_cases hv : v.kind = .string
          · cases v with
            | string text =>
              exact .inr (.inl ⟨vs, text, [], w.display, rfl, hfront, .sum hw⟩)
            | null | int | float | bool | callable => cases hv
          · exact .inr (.inr ⟨vs, v, [], w, rfl, hw, hplus, hwtext, hv⟩)
    · exact .inr (.inl ⟨front, text, back ++ [v], lead, by simp, hfront, hlead⟩)
    · exact .inr (.inr ⟨front, u, back ++ [v], w, by simp, hbroken⟩)

end

/-! ## Chains -/

namespace Source

/-- A term of a chain behind the first one: the sign in front of it, and the piece of the source
that the sum up to it takes up. -/
structure Summand where
  sign : Span
  operand : Expr
  span : Span

def Expr.add (e : Expr) (x : Summand) : Expr := .binary .sum e ⟨"+", x.sign⟩ x.operand x.span

/-- The chain of an expression and some more terms: it groups to the left. -/
def Expr.plus (e : Expr) (rest : List Summand) : Expr := rest.foldl Expr.add e

def Expr.terms (e : Expr) (rest : List Summand) : List Expr := e :: rest.map (·.operand)

/-- The nodes that hold a chain together: those of its sums. -/
def Expr.spine (e : Expr) : List Summand → List Node
  | [] => []
  | x :: rest => (e.add x).toNode :: (e.add x).spine rest

end Source

open Source (Summand)

section

variable (host : Host) (rounds : Nat)

/-- The run of an expression from a state: the terms that it evaluates, in this order, their values,
and what it comes to. -/
structure Host.Tour (e : Expr) (spine : List Node) (s : State) (done : List Expr) (vs : List Value)
    (t : State) (r : Except Stop Value) : Prop where
  values : evalArgs host rounds (Expr.toNodes done) s = (.ok vs, t)
  env : t.env = s.env
  /-- Each of these is evaluated, from where those before it have led. -/
  reached : ∀ p ∈ host.visits rounds done s, Reaches host rounds e.toNode s p.1 p.2
  /-- Nothing else is, but what they evaluate themselves. -/
  only : ∀ m u, Reaches host rounds e.toNode s m u → m ∈ spine ∨
    ∃ p ∈ host.visits rounds done s, Reaches host rounds p.1 p.2 m u
  result : eval host rounds e.toNode s = (r, t)

/-- What a chain comes to, by the values of its terms in the environment that it starts in. -/
structure Host.Sums (e : Expr) (rest : List Summand) (s : State) : Prop where
  /-- Numbers are added. -/
  numbers {vs : List Value} {w : Value}
    (hvs : List.Forall₂ (host.Gives rounds s.env) (e.terms rest) vs) (near : ∀ v ∈ vs, v.Near)
    (hw : Value.total? vs = some w) :
    ∃ t, host.Tour rounds (e.plus rest) (e.spine rest) s (e.terms rest) vs t (.ok w)
  /-- A text takes up the sum in front of it, and all that follows. -/
  text {front : List Value} {text : String} {back : List Value} {lead : String}
    (hvs : List.Forall₂ (host.Gives rounds s.env) (e.terms rest) (front ++ .string text :: back))
    (near : ∀ v ∈ front ++ .string text :: back, v.Near) (hlead : Value.Leads front lead) :
    ∃ t, host.Tour rounds (e.plus rest) (e.spine rest) s (e.terms rest)
      (front ++ .string text :: back) t (.ok (.string (lead ++ text ++ Value.displayAll back)))
  /-- If a sum and the value behind it are not both numbers, and neither is a text, the chain fails
  there, and nothing behind it is evaluated. -/
  broken {before : List Summand} {x : Summand} {after : List Summand} {front : List Value}
    {v w : Value} (hrest : rest = before ++ x :: after)
    (hfront : List.Forall₂ (host.Gives rounds s.env) (e.terms before) front)
    (hv : host.Gives rounds s.env x.operand v) (near : ∀ u ∈ v :: front, u.Near)
    (hw : Value.total? front = some w) (hplus : w.plus? v = none) (htext : w.kind ≠ .string)
    (htext' : v.kind ≠ .string) :
    ∃ t, host.Tour rounds (e.plus rest) (e.spine rest) s (e.terms before ++ [x.operand])
      (front ++ [v]) t
      (.error (.failure ⟨.operands "+" w.kind v.kind, (Place.span x.span).location⟩))
  /-- There are no other cases. -/
  cases {vs : List Value} (hvs : List.Forall₂ (host.Gives rounds s.env) (e.terms rest) vs) :
    (∃ w, Value.total? vs = some w) ∨
      (∃ front text back lead, vs = front ++ .string text :: back ∧
        (∀ v ∈ front, v.kind ≠ .string) ∧ Value.Leads front lead) ∨
      ∃ before x after front v back w, rest = before ++ x :: after ∧ vs = front ++ v :: back ∧
        List.Forall₂ (host.Gives rounds s.env) (e.terms before) front ∧
        host.Gives rounds s.env x.operand v ∧ Value.total? front = some w ∧ w.plus? v = none ∧
        w.kind ≠ .string ∧ v.kind ≠ .string

end

section

variable {host : Host} {rounds : Nat} {e : Expr} {x : Summand} {spine : List Node} {s t u : State}
  {done : List Expr} {vs : List Value} {a b : Value}

theorem evalArgs_concat {ns : List Node} {n : Node}
    (h : evalArgs host rounds ns s = (.ok vs, t)) (hn : eval host rounds n t = (.ok b, u)) :
    evalArgs host rounds (ns ++ [n]) s = (.ok (vs ++ [b]), u) := by
  have hsingle : evalArgs host rounds [n] t = (.ok [b], u) := by
    rw [evalArgs, evalArgs, bind_ok hn]
    rfl
  rw [evalArgs_append, bind_ok h, bind_ok hsingle]
  rfl

theorem visits_concat {es : List Expr}
    (h : evalArgs host rounds (Expr.toNodes es) s = (.ok vs, t)) (e : Expr) :
    host.visits rounds (es ++ [e]) s = host.visits rounds es s ++ [(e.toNode, t)] := by
  induction es generalizing s vs with
  | nil =>
    rw [Expr.toNodes, evalArgs] at h
    cases h
    rfl
  | cons d es ih =>
    rw [Expr.toNodes, evalArgs] at h
    obtain ⟨v, s', hv, h⟩ := exists_of_bind_ok h
    obtain ⟨ws, t', hws, h⟩ := exists_of_bind_ok h
    cases h
    rw [List.cons_append, Host.visits, Host.visits, hv, ih hws, List.cons_append]

theorem eval_add (e : Expr) (x : Summand) :
    eval host rounds (e.add x).toNode = located (.span x.span) (do
      let a ← eval host rounds e.toNode
      let b ← eval host rounds x.operand.toNode
      ofExcept (applyArithmetic "+" a b)) :=
  eval_binary host rounds .sum _ _ "+" _ _

theorem reaches_add {m : Node} (h : Reaches host rounds (e.add x).toNode s m u) :
    m = (e.add x).toNode ∨ Reaches host rounds e.toNode s m u ∨
      ∃ a t, eval host rounds e.toNode s = (.ok a, t) ∧
        Reaches host rounds x.operand.toNode t m u := by
  cases h with
  | here => exact .inl rfl
  | into he rest =>
    rcases visits_of_enters he with ⟨rfl, rfl⟩ | ⟨rfl, a, ha⟩
    · exact .inr (.inl rest)
    · exact .inr (.inr ⟨a, _, ha, rest⟩)

/-- A chain of one term. -/
theorem tour_single {v : Value} (hv : host.Gives rounds s.env e v) :
    ∃ t, host.Tour rounds e [] s [e] [v] t (.ok v) := by
  obtain ⟨t, ht, henv⟩ := hv.eval
  have hnone : evalArgs host rounds [] s = (.ok [], s) := by rw [evalArgs]; rfl
  exact ⟨t,
    { values := evalArgs_concat hnone ht
      env := henv
      reached := List.forall_mem_singleton.mpr .here
      only := fun m u h => .inr ⟨_, List.mem_singleton_self _, h⟩
      result := ht }⟩

/-- One more term, behind a chain that has a value. -/
theorem Host.Tour.add (h : host.Tour rounds e spine s done vs t (.ok a))
    (hb : host.Gives rounds s.env x.operand b) :
    ∃ u, host.Tour rounds (e.add x) (spine ++ [(e.add x).toNode]) s (done ++ [x.operand])
      (vs ++ [b]) u ((applyArithmetic "+" a b).mapError fun f =>
        .failure (Failure.leaving (.span x.span) ⟨f, none⟩)) := by
  rw [← h.env] at hb
  obtain ⟨u, hu, henv⟩ := hb.eval
  refine ⟨u,
    { values := ?_
      env := henv.trans h.env
      reached := ?_
      only := fun m k hm => ?_
      result := ?_ }⟩
  · rw [toNodes_append]
    exact evalArgs_concat h.values hu
  · rw [visits_concat h.values]
    refine List.forall_mem_append.mpr ⟨fun p hp => .into ?_ (h.reached p hp),
      List.forall_mem_singleton.mpr (.into ?_ .here)⟩
    · exact @Enters.left host rounds .sum _ _ _ _ _ _
    · exact @Enters.right host rounds .sum _ _ _ _ _ _ _ _ h.result
  · rw [visits_concat h.values]
    rcases reaches_add hm with rfl | hm | ⟨a', t', ha, hm⟩
    · exact .inl (List.mem_append_right _ (List.mem_singleton_self _))
    · rcases h.only m k hm with hspine | ⟨p, hp, hm⟩
      · exact .inl (List.mem_append_left _ hspine)
      · exact .inr ⟨p, List.mem_append_left _ hp, hm⟩
    · cases ha.symm.trans h.result
      exact .inr ⟨_, List.mem_append_right _ (List.mem_singleton_self _), hm⟩
  · rw [eval_add, located, bind_ok h.result, bind_ok hu]
    cases applyArithmetic "+" a b <;> rfl

/-- One more term, behind a chain that has failed. -/
theorem Host.Tour.add_failure {f : Failure}
    (h : host.Tour rounds e spine s done vs t (.error (.failure f))) (hf : f.Settled)
    (x : Summand) :
    host.Tour rounds (e.add x) (spine ++ [(e.add x).toNode]) s done vs t (.error (.failure f)) where
  values := h.values
  env := h.env
  reached p hp := .into (@Enters.left host rounds .sum _ _ _ _ _ _) (h.reached p hp)
  only m k hm := by
    rcases reaches_add hm with rfl | hm | ⟨a', t', ha, hm⟩
    · exact .inl (List.mem_append_right _ (List.mem_singleton_self _))
    · exact (h.only m k hm).imp_left fun hspine => List.mem_append_left _ hspine
    · cases ha.symm.trans h.result
  result := by
    rw [eval_add, located, bind_error h.result]
    simp only [leaving_of_settled hf]

theorem Host.Tour.plus {rest : List Summand} {bs : List Value} {w : Value}
    (h : host.Tour rounds e spine s done vs t (.ok a))
    (hbs : List.Forall₂ (host.Gives rounds s.env) (rest.map (·.operand)) bs)
    (hw : bs.foldlM (applyArithmetic "+") a = .ok w) :
    ∃ u, host.Tour rounds (e.plus rest) (spine ++ e.spine rest) s
      (done ++ rest.map (·.operand)) (vs ++ bs) u (.ok w) := by
  induction rest generalizing e spine done vs bs t a with
  | nil =>
    cases hbs
    cases hw
    rw [Expr.spine, List.map_nil, List.append_nil, List.append_nil, List.append_nil]
    exact ⟨t, h⟩
  | cons x rest ih =>
    cases hbs with
    | @cons _ b _ bs hb hbs =>
      obtain ⟨u, hu⟩ := h.add hb
      rw [List.foldlM_cons] at hw
      cases hr : applyArithmetic "+" a b with
      | error f =>
        rw [hr] at hw
        cases hw
      | ok r =>
        rw [hr] at hu hw
        have hrest := ih hu hbs hw
        simp only [List.append_assoc, List.singleton_append] at hrest
        exact hrest

theorem Host.Tour.plus_failure {f : Failure}
    (h : host.Tour rounds e spine s done vs t (.error (.failure f))) (hf : f.Settled)
    (rest : List Summand) :
    host.Tour rounds (e.plus rest) (spine ++ e.spine rest) s done vs t (.error (.failure f)) := by
  induction rest generalizing e spine with
  | nil =>
    rw [Expr.spine, List.append_nil]
    exact h
  | cons x rest ih =>
    have hrest := ih (h.add_failure hf x)
    rw [List.append_assoc] at hrest
    exact hrest

/-- A chain is a chain of a shorter one. -/
theorem spine_append (e : Expr) (before : List Summand) (x : Summand) (after : List Summand) :
    e.spine (before ++ x :: after) =
      e.spine before ++ ((e.plus before).add x).toNode :: ((e.plus before).add x).spine after := by
  induction before generalizing e with
  | nil => rfl
  | cons y before ih => exact congrArg _ (ih (e.add y))

theorem plus_append (e : Expr) (before : List Summand) (x : Summand) (after : List Summand) :
    e.plus (before ++ x :: after) = ((e.plus before).add x).plus after :=
  List.foldl_append

/-- A chain whose values can be added from the left to the right. -/
theorem tour_of_fold {rest : List Summand} {us : List Value} {v w : Value}
    (hvs : List.Forall₂ (host.Gives rounds s.env) (e.terms rest) (v :: us))
    (hw : us.foldlM (applyArithmetic "+") v = .ok w) :
    ∃ t, host.Tour rounds (e.plus rest) (e.spine rest) s (e.terms rest) (v :: us) t (.ok w) := by
  cases hvs with
  | cons hv hus =>
    obtain ⟨t, ht⟩ := tour_single hv
    exact ht.plus hus hw

theorem tour_of_total? {rest : List Summand} {w : Value}
    (hvs : List.Forall₂ (host.Gives rounds s.env) (e.terms rest) vs) (near : ∀ v ∈ vs, v.Near)
    (hw : Value.total? vs = some w) :
    w.Near ∧
      ∃ t, host.Tour rounds (e.plus rest) (e.spine rest) s (e.terms rest) vs t (.ok w) := by
  cases vs with
  | nil => cases hw
  | cons v us =>
    obtain ⟨hv, hus⟩ := List.forall_mem_cons.mp near
    obtain ⟨hfold, hnear⟩ := foldlM_add hv hus hw
    exact ⟨hnear, tour_of_fold hvs hfold⟩

/-- The terms of a chain are told apart as their values are. -/
theorem split_of_values {R : Expr → Value → Prop} {rest : List Summand} {front : List Value}
    {v : Value} {back : List Value}
    (h : List.Forall₂ R (rest.map (·.operand)) (front ++ v :: back)) :
    ∃ before x after, rest = before ++ x :: after ∧
      List.Forall₂ R (before.map (·.operand)) front ∧ R x.operand v := by
  induction front generalizing rest with
  | nil =>
    cases rest with
    | nil => cases h
    | cons x after =>
      cases h with
      | cons hx _ => exact ⟨[], x, after, rfl, .nil, hx⟩
  | cons u front ih =>
    cases rest with
    | nil => cases h
    | cons y rest =>
      cases h with
      | cons hy h =>
        obtain ⟨before, x, after, rfl, hbefore, hx⟩ := ih h
        exact ⟨y :: before, x, after, rfl, .cons hy hbefore, hx⟩

/-- A chain of sums adds numbers from the left to the right. From the first text on, it writes texts
one behind the other, of values of any kind; the sum in front of the text is the first of them. If a
sum and the value behind it are not both numbers, and neither is a text, the chain fails there, and
nothing behind that value is evaluated. -/
theorem chain_sums (host : Host) (rounds : Nat) (e : Expr) (rest : List Summand) (s : State) :
    host.Sums rounds e rest s where
  numbers hvs near hw := (tour_of_total? hvs near hw).2
  text {front text back lead} hvs near hlead := by
    obtain ⟨v, us, hlist, hfold⟩ := foldlM_lead near hlead
    rw [hlist] at hvs ⊢
    exact tour_of_fold hvs hfold
  broken {before x after front v w} hrest hfront hv near hw hplus htext htext' := by
    obtain ⟨hnear, hnears⟩ := List.forall_mem_cons.mp near
    obtain ⟨hwnear, t, ht⟩ := tour_of_total? hfront hnears hw
    obtain ⟨u, hu⟩ := ht.add hv
    rw [add_broken hwnear hnear hplus htext htext'] at hu
    change host.Tour rounds _ _ s _ _ u (.error (.failure (Failure.leaving _ _))) at hu
    rw [leaving_of_native rfl, Option.none_or] at hu
    subst hrest
    rw [plus_append, spine_append]
    have hchain := hu.plus_failure (fun _ => rfl) after
    rw [List.append_assoc] at hchain
    exact ⟨u, hchain⟩
  cases {vs} hvs := by
    have hne : vs ≠ [] := by
      rintro rfl
      cases hvs
    rcases sum_cases hne with hsum | htext | ⟨front, v, back, w, rfl, hw, hplus, hwtext, hvtext⟩
    · exact .inl hsum
    · exact .inr (.inl htext)
    · cases front with
      | nil => cases hw
      | cons u front =>
        cases hvs with
        | cons hu hvs =>
          obtain ⟨before, x, after, rfl, hbefore, hx⟩ := split_of_values hvs
          exact .inr (.inr ⟨before, x, after, u :: front, v, back, w, rfl, rfl,
            .cons hu hbefore, hx, hw, hplus, hwtext, hvtext⟩)

end

end Scriptlet
