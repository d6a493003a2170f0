import Scriptlet.Proofs.Forms
/-!
# Conditions that evaluation keeps

A condition on states and one on values go through a whole evaluation if no step breaks them, and
the steps are few: `Kept` names them all but one, the binding of a name, which is for the condition
at hand to show. What a node does beyond its children is to raise a fault (`Raises`). Main
statements: what the children of a node keep, the node keeps (`lands_of_enters`); what every step
keeps, every node keeps, and every failure is raised by some node on the way (`lands_of_kept`); and
it holds in each state that a node is entered in (`state_of_reaches`).
-/

namespace Scriptlet

open Source (Keyword Level)

def State.assign (s : State) (name : String) (v : Value) : State :=
  { env := s.env.define name v, log := .bind name v :: s.log }

section

variable (host : Host) (rounds : Nat)

/-- A node raises a fault by a step of its own, in the state that its children have left. -/
inductive Raises : Node → State → Fault → State → Prop where
  | misfit {n : Node} {s : State} {f : Fault} (hf : n.misfit? = some f)
      (h : eval host rounds n = Run.located n.place (Run.fail f)) : Raises n s f s
  | name {n : Node} {text : String} {s : State}
      (h : eval host rounds n = Run.located n.place (lookUp text)) (hs : s.env.get? text = none) :
      Raises n s (.undefined "Variable" text) s
  | literal {n : Node} {kind : TokenKind} {text : String} {p : Place} {s : State} {f : Fault}
      (hn : n = .token kind text p ∧ kind ≠ .identifier ∨
        ∃ place, n = .tree .constant [.token kind text p] place)
      (h : literalValue kind text = .error f) : Raises n s f s
  | call {name : String} {args : List Node} {p place : Place} {s t u : State} {vs : List Value}
      {f : Fault} (hvs : evalArgs host rounds args s = (.ok vs, t))
      (h : callNamed host name vs t = (.error (.failure ⟨f, none⟩), u)) :
      Raises (.tree .functionCall (.token .identifier name p :: args) place) s f u
  | negate {operand : Node} {place : Place} {s t : State} {v : Value} {f : Fault}
      (hv : eval host rounds operand s = (.ok v, t)) (h : negate v = .error f) :
      Raises (.tree .negate [operand] place) s f t
  | operator {level : Level} {lhs rhs : Node} {op : String} {p place : Place} {s t u : State}
      {a b : Value} {f : Fault} (ha : eval host rounds lhs s = (.ok a, t))
      (hb : eval host rounds rhs t = (.ok b, u)) (h : applyOperator level op a b = .error f) :
      Raises (.tree level.label [lhs, .token level.tokenKind op p, rhs] place) s f u
  | condition {w : Keyword} {word : String} {c b : Node} {otherwise : List Node} {p place : Place}
      {s t : State} {v : Value} {f : Fault} (hv : eval host rounds c s = (.ok v, t))
      (h : conditionMet word (positive w) v = .error f) :
      Raises (.tree w.label (.token w.tokenKind word p :: c :: b :: otherwise) place) s f t
  | again {w : Keyword} {word : String} {c b : Node} {otherwise : List Node} {p place : Place}
      {s t u x y : State} {v : Value} {f : Fault}
      (hmet : check host rounds w word c s = (.ok true, t))
      (behind : Run.Rounds (check host rounds w word c) (once host rounds b) t u)
      (hb : once host rounds b u = (.ok (), x)) (hv : eval host rounds c x = (.ok v, y))
      (h : conditionMet word (positive w) v = .error f) :
      Raises (.tree w.label (.token w.tokenKind word p :: c :: b :: otherwise) place) s f y

end

/-- The fault of a call with arguments: one of the call itself, or what its function fails with. -/
inductive CallFault (host : Host) (V : Value → Prop) (args : List Value) : Fault → Prop where
  | own {f : Fault}
      (h : f.faultClass = .name ∨ f.faultClass = .type ∨ f.faultClass = .arithmetic) :
      CallFault host V args f
  | native {c : Callable} {f : Fault} (hc : V (.callable c))
      (count : ∀ n, c.arity = some n → args.length = n)
      (h : (host.reply c.ident args).answer = .fails f) : CallFault host V args f

/-- A condition on states and one on values that no step of an evaluation breaks, except perhaps
that of binding a name. -/
structure Kept (host : Host) (I : State → Prop) (V : Value → Prop) : Prop where
  null : V .null
  literal {kind : TokenKind} {raw : String} {v : Value} (h : literalValue kind raw = .ok v) : V v
  operator {level : Level} {op : String} {a b v : Value} (ha : V a) (hb : V b)
    (h : applyOperator level op a b = .ok v) : V v
  negate {a v : Value} (ha : V a) (h : negate a = .ok v) : V v
  bound {s : State} {name : String} {v : Value} (hs : I s) (h : s.env.get? name = some v) : V v
  called {s : State} {name : String} {count : Nat} (hs : I s) :
    I { s with log := .call name count :: s.log }
  entered {s : State} {c : Callable} {args : List Value} (hs : I s) (hc : V (.callable c))
    (hargs : ∀ v ∈ args, V v) : I { s with log := .enter c args :: s.log }
  printed {s : State} {text : String} (hs : I s) : I { s with log := .print text :: s.log }
  answered {c : Callable} {args : List Value} {v : Value} (hc : V (.callable c))
    (hargs : ∀ v ∈ args, V v) (h : (host.reply c.ident args).answer = .value v) : V v

section

variable {host : Host} {rounds : Nat} {I : State → Prop} {V : Value → Prop}
  {fails : Failure → State → Prop} {s : State}

/-- A condition on states alone is kept if no event breaks it, except perhaps a binding. -/
theorem kept_of_events
    (h : ∀ s e, (∀ name v, e ≠ .bind name v) → I s → I { s with log := e :: s.log }) :
    Kept host I fun _ => True where
  null := trivial
  literal _ := trivial
  operator _ _ _ := trivial
  negate _ _ := trivial
  bound _ _ := trivial
  called hs := h _ _ nofun hs
  entered hs _ _ := h _ _ nofun hs
  printed hs := h _ _ nofun hs
  answered _ _ _ := trivial

/-! ## One node -/

theorem lookUp_kept (k : Kept host I V) (hs : I s) (name : String)
    (hraise : s.env.get? name = none → fails ⟨.undefined "Variable" name, none⟩ s) :
    (lookUp name).Lands s (fun v t => I t ∧ V v) fails := by
  simp only [lookUp, Run.lands_bind, Run.lands_environment]
  split
  next v h => exact ⟨hs, k.bound hs h⟩
  next h => exact hraise h

theorem print_kept (k : Kept host I V) (hs : I s) (text : String) :
    (Run.print text).Lands s (fun _ t => I t) fails := by
  unfold Run.print
  split
  · exact hs
  · exact k.printed hs

theorem carryOut_kept (k : Kept host I V) (hs : I s) {c : Callable} (hc : V (.callable c))
    {args : List Value} (hargs : ∀ v ∈ args, V v)
    (count : ∀ n, c.arity = some n → args.length = n) :
    (carryOut host c args).Lands s (fun v t => I t ∧ V v)
      fun f t => f.location = none ∧ I t ∧ CallFault host V args f.fault := by
  simp only [carryOut, Run.lands_bind, Run.lands_record]
  refine (print_kept k (k.entered hs hc hargs) _).weaken fun _ t _ ht => ?_
  cases ha : (host.reply c.ident args).answer with
  | value v => exact ⟨ht, k.answered hc hargs ha⟩
  | nothing => exact ⟨ht, k.null⟩
  | foreign | rejected => exact ⟨rfl, ht, .own (.inr (.inl rfl))⟩
  | incomputable => exact ⟨rfl, ht, .own (.inr (.inr rfl))⟩
  | fails f => exact ⟨rfl, ht, .native hc count ha⟩

theorem invoke_kept (k : Kept host I V) (hs : I s) {c : Callable} (hc : V (.callable c))
    {args : List Value} (hargs : ∀ v ∈ args, V v) :
    (invoke host c args).Lands s (fun v t => I t ∧ V v)
      fun f t => f.location = none ∧ I t ∧ CallFault host V args f.fault := by
  have hout := carryOut_kept k hs hc hargs
  rw [invoke_eq]
  split
  next count harity =>
    split
    next => exact ⟨rfl, hs, .own (.inr (.inl rfl))⟩
    next hlen =>
      refine hout fun n hn => ?_
      rw [harity] at hn
      rw [Decidable.not_not.mp hlen, Option.some.inj hn]
  next harity =>
    refine hout fun n hn => ?_
    rw [harity] at hn
    cases hn

theorem callNamed_kept (k : Kept host I V) (hs : I s) (name : String) {args : List Value}
    (hargs : ∀ v ∈ args, V v) :
    (callNamed host name args).Lands s (fun v t => I t ∧ V v)
      fun f t => f.location = none ∧ I t ∧ CallFault host V args f.fault := by
  simp only [callNamed, resolveCallee, Run.lands_bind, Run.lands_environment]
  split
  next c h =>
    exact invoke_kept (s := { s with log := .call name args.length :: s.log }) k (k.called hs)
      (k.bound hs h) hargs
  next => exact ⟨rfl, hs, .own (.inr (.inl rfl))⟩
  next => exact ⟨rfl, hs, .own (.inl rfl)⟩

theorem lands_leaving {r : Run Value} {post : Value → State → Prop} (place : Place)
    (h : r.Lands s post fails) :
    (Run.located place r).Lands s post fun f t => ∃ g, f = g.leaving place ∧ fails g t := by
  rw [Run.lands_located]
  exact h.mono (fun _ _ _ hv => hv) fun f t _ hf => ⟨f, rfl, hf⟩

theorem check_kept {w : Keyword} {word : String} {c : Node}
    (h : (eval host rounds c).Lands s (fun v t => I t ∧ V v) fails)
    (hraise : ∀ v f t, eval host rounds c s = (.ok v, t) →
      conditionMet word (positive w) v = .error f → I t → fails ⟨f, none⟩ t) :
    (check host rounds w word c).Lands s (fun _ t => I t) fails := by
  rw [check, Run.lands_bind]
  refine h.weaken fun v t hv ht => ?_
  rw [Run.lands_ofExcept]
  exact ⟨fun _ _ => ht.1, fun f hf => hraise v f t hv hf ht.1⟩

theorem once_kept {b : Node} (h : (eval host rounds b).Lands s (fun v t => I t ∧ V v) fails) :
    (once host rounds b).Lands s (fun _ t => I t) fails := by
  rw [once, Run.lands_bind]
  exact h.weaken fun _ _ _ ht => ht.1

section

variable {w : Keyword} {word : String} {c b : Node} {otherwise : List Node} {p place : Place}

theorem proceed_kept {t : State} (single : otherwise.length ≤ 1)
    (hmet : check host rounds w word c s = (.ok true, t)) (ht : I t)
    (hchild : ∀ m t, Enters host rounds
      (.tree w.label (.token w.tokenKind word p :: c :: b :: otherwise) place) s m t → I t →
      (eval host rounds m).Lands t (fun v u => I u ∧ V v) fails)
    (hraise : ∀ f t, Raises host rounds
      (.tree w.label (.token w.tokenKind word p :: c :: b :: otherwise) place) s f t → I t →
      fails ⟨f, none⟩ t) :
    (proceed host rounds w word c b).Lands t (fun _ u => I u) fails := by
  have hif (hw : w.label = .ifBlock) : (once host rounds b).Lands t (fun _ u => I u) fails :=
    once_kept (hchild b t (.body single hw hmet) ht)
  have hwhile (hw : w.label = .whileBlock) :
      (Run.repeatWhile (check host rounds w word c) (once host rounds b) rounds).Lands t
        (fun _ u => I u) fails := by
    refine Run.lands_repeatWhile rounds ht fun u behind hu => ?_
    refine (once_kept (hchild b u (.round single hw hmet behind) hu)).weaken fun _ x hx hI => ?_
    exact check_kept (hchild c x (.again single hw hmet behind hx) hI) fun v f y hv hf =>
      hraise f y (.again hmet behind hx hv hf)
  cases w with
  | ifWord | unlessWord => exact hif rfl
  | whileWord | untilWord => exact hwhile rfl

/-- A conditional keeps what its condition and its branches keep. -/
theorem conditional_kept (k : Kept host I V) (single : otherwise.length ≤ 1) (hs : I s)
    (hchild : ∀ m t, Enters host rounds
      (.tree w.label (.token w.tokenKind word p :: c :: b :: otherwise) place) s m t → I t →
      (eval host rounds m).Lands t (fun v u => I u ∧ V v) fails)
    (hraise : ∀ f t, Raises host rounds
      (.tree w.label (.token w.tokenKind word p :: c :: b :: otherwise) place) s f t → I t →
      fails ⟨f, none⟩ t) :
    Run.Lands (do
      if ← check host rounds w word c then do
        proceed host rounds w word c b
        pure .null
      else evalElse host rounds otherwise) s (fun v t => I t ∧ V v) fails := by
  rw [Run.lands_bind]
  refine (check_kept (hchild c s (.condition single) hs) fun v f t hv hf =>
    hraise f t (.condition hv hf)).weaken fun met t hmet ht => ?_
  cases met with
  | true =>
    rw [if_pos rfl, Run.lands_bind]
    exact (proceed_kept single hmet ht hchild hraise).weaken fun _ u _ hu => ⟨hu, k.null⟩
  | false =>
    rw [if_neg (by decide)]
    rcases otherwise with _ | ⟨m, _ | ⟨m', more⟩⟩
    · rw [evalElse]
      exact ⟨ht, k.null⟩
    · rw [evalElse]
      exact hchild m t (.otherwise hmet) ht
    · exact absurd single (by simp)

end

/-- What the children of a node keep, and its own steps do not break, the node keeps. A failure of
the node is that of a child, or one raised without a location, as it leaves the node's place. -/
theorem lands_of_enters (k : Kept host I V) {n : Node} (hs : I s)
    (hchild : ∀ m t, Enters host rounds n s m t → I t →
      (eval host rounds m).Lands t (fun v u => I u ∧ V v) fails)
    (hbind : ∀ name p source place,
      n = .tree .assignment [.token .identifier name p, source] place → ∀ v t,
        eval host rounds source s = (.ok v, t) → I t → V v → I (t.assign name v))
    (hraise : ∀ f t, Raises host rounds n s f t → I t → fails ⟨f, none⟩ t) :
    (eval host rounds n).Lands s (fun v t => I t ∧ V v)
      fun f t => ∃ g, f = g.leaving n.place ∧ fails g t := by
  cases form n with
  | misfit hf h =>
    rw [h]
    exact lands_leaving _ (hraise _ s (.misfit hf (h host rounds)) hs)
  | name text _ h =>
    rw [h]
    exact lands_leaving _ (lookUp_kept k hs text fun hnone =>
      hraise _ s (.name (h host rounds) hnone) hs)
  | literal hn h =>
    rw [h]
    refine lands_leaving _ ?_
    rw [Run.lands_ofExcept]
    exact ⟨fun v hv => ⟨hs, k.literal hv⟩, fun f hf => hraise f s (.literal hn hf) hs⟩
  | @statements label hl kids place =>
    rw [eval_statements host rounds hl]
    refine lands_leaving _ ?_
    rw [Run.lands_bind]
    refine (lands_evalAll kids hs fun before m after t hkids hb ht => ?_).weaken
      fun _ t _ ht => ⟨ht, k.null⟩
    subst hkids
    exact (hchild m t (.statement hl hb) ht).weaken fun _ _ _ hu => hu.1
  | assignment name p source place =>
    rw [eval, expectName, pure_bind]
    refine lands_leaving _ ?_
    rw [Run.lands_bind]
    refine (hchild source s .source hs).weaken fun v t hv ht => ?_
    rw [Run.lands_bind, Run.lands_define]
    exact ⟨hbind name p source place rfl v t hv ht.1 ht.2, k.null⟩
  | call name p args place =>
    rw [eval, expectName, pure_bind]
    refine lands_leaving _ ?_
    have hargs : (evalArgs host rounds args).Lands s (fun vs u => I u ∧ ∀ v ∈ vs, V v) fails := by
      refine lands_evalArgs args hs fun before m after t vs hargs hvs ht => ?_
      subst hargs
      exact hchild m t (.argument hvs) ht
    rw [Run.lands_bind]
    refine hargs.weaken fun vs t hvs ht => ?_
    refine (callNamed_kept k ht.1 name ht.2).mono (fun _ _ _ hv => hv) fun f u hf hu => ?_
    obtain ⟨fault, location⟩ := f
    obtain ⟨rfl, hu, -⟩ := hu
    exact hraise fault u (.call hvs hf) hu
  | negate operand place =>
    rw [eval]
    refine lands_leaving _ ?_
    rw [Run.lands_bind]
    refine (hchild operand s .operand hs).weaken fun v t hv ht => ?_
    rw [Run.lands_ofExcept]
    exact ⟨fun w hw => ⟨ht.1, k.negate ht.2 hw⟩, fun f hf => hraise f t (.negate hv hf) ht.1⟩
  | binary level lhs rhs op p place =>
    rw [eval_binary]
    refine lands_leaving _ ?_
    rw [Run.lands_bind]
    refine (hchild lhs s .left hs).weaken fun a t ha ht => ?_
    rw [Run.lands_bind]
    refine (hchild rhs t (.right ha) ht.1).weaken fun b u hb hu => ?_
    rw [Run.lands_ofExcept]
    exact ⟨fun v hv => ⟨hu.1, k.operator ht.2 hu.2 hv⟩,
      fun f hf => hraise f u (.operator ha hb hf) hu.1⟩
  | @conditional w word c b otherwise p place single =>
    rw [eval_conditional host rounds w word c b p place single]
    exact lands_leaving _ (conditional_kept k single hs hchild hraise)
  | elseBlock body place =>
    rw [eval]
    exact lands_leaving _ (hchild body s .branch hs)

/-! ## All nodes -/

variable (host rounds I V) in
/-- Evaluated from a state that meets a condition, a node ends or fails in such a state. -/
def Keeps (n : Node) : Prop :=
  ∀ s, I s → (eval host rounds n).Lands s (fun v t => I t ∧ V v) fun _ t => I t

/-- What every step keeps, a node keeps; and if it fails, then with a fault that some node raises
which its run reaches. -/
theorem lands_of_kept (k : Kept host I V)
    (hbind : ∀ {s : State} {name v}, I s → V v → I (s.assign name v)) (n : Node) (hs : I s) :
    (eval host rounds n).Lands s (fun v t => I t ∧ V v) fun f t => I t ∧
      ∃ m u, Reaches host rounds n s m u ∧ I u ∧ Raises host rounds m u f.fault t := by
  induction n using operands_induction generalizing s with
  | h n ih =>
    have hn : (eval host rounds n).Lands s (fun v t => I t ∧ V v)
        fun f t => ∃ g : Failure, f = g.leaving n.place ∧ I t ∧
          ∃ m u, Reaches host rounds n s m u ∧ I u ∧ Raises host rounds m u g.fault t := by
      refine lands_of_enters k hs (fun m t he ht => ?_)
        (fun _ _ _ _ _ _ _ _ ht hv => hbind ht hv) fun f t hf ht => ⟨ht, n, s, .here, hs, hf⟩
      refine (ih m (mem_operands_of_enters host rounds he) ht).mono (fun _ _ _ hv => hv) ?_
      rintro f u - ⟨hu, m', u', hreach, hf⟩
      exact ⟨hu, m', u', .into he hreach, hf⟩
    refine hn.mono (fun _ _ _ hv => hv) ?_
    rintro _ t - ⟨g, rfl, hg⟩
    rw [fault_leaving]
    exact hg

theorem keeps_of_kept (k : Kept host I V)
    (hbind : ∀ {s : State} {name v}, I s → V v → I (s.assign name v)) (n : Node) :
    Keeps host rounds I V n := by
  intro s hs
  exact (lands_of_kept k hbind n hs).mono (fun _ _ _ hv => hv) fun _ _ _ hf => hf.1

/-- A call whose arguments have values fails with a fault of its own or with that of
its function. -/
theorem callFault_of_call (k : Kept host I V) (keeps : ∀ m, Keeps host rounds I V m) (hs : I s)
    {name : String} {args : List Node} {vs : List Value} {t u : State} {f : Fault}
    (hvs : evalArgs host rounds args s = (.ok vs, t))
    (h : callNamed host name vs t = (.error (.failure ⟨f, none⟩), u)) : CallFault host V vs f := by
  have hargs : (evalArgs host rounds args).Lands s (fun vs u => I u ∧ ∀ v ∈ vs, V v)
      fun _ _ => True := by
    refine lands_evalArgs args hs fun _ m _ u _ _ _ hu => ?_
    exact (keeps m u hu).mono (fun _ _ _ hv => hv) fun _ _ _ _ => trivial
  obtain ⟨ht, hvalues⟩ := (Run.lands_of_ok hvs).mp hargs
  exact ((Run.lands_of_failure h).mp (callNamed_kept k ht name hvalues)).2.2

/-! ## States on the way -/

variable {n m : Node} {t : State}

theorem Keeps.of_eval {v : Value} (h : Keeps host rounds I V n) (hs : I s)
    (hv : eval host rounds n s = (.ok v, t)) : I t :=
  ((Run.lands_of_ok hv).mp (h s hs)).1

theorem Keeps.of_check {w : Keyword} {word : String} {met : Bool} (h : Keeps host rounds I V n)
    (hs : I s) (hc : check host rounds w word n s = (.ok met, t)) : I t :=
  (Run.lands_of_ok hc).mp (check_kept (h s hs) fun _ _ _ _ _ ht => ht)

theorem Keeps.of_once (h : Keeps host rounds I V n) (hs : I s)
    (hb : once host rounds n s = (.ok (), t)) : I t :=
  (Run.lands_of_ok hb).mp (once_kept (h s hs))

theorem Keeps.of_rounds {w : Keyword} {word : String} {c b : Node} (hc : Keeps host rounds I V c)
    (hb : Keeps host rounds I V b) (hs : I s)
    (h : Run.Rounds (check host rounds w word c) (once host rounds b) s t) :
    I t := by
  induction h with
  | none => exact hs
  | more hbody hcheck _ ih => exact ih (hc.of_check (hb.of_once hs hbody) hcheck)

/-- What the children of a node keep holds where the node enters them. -/
theorem state_of_enters (h : ∀ k ∈ operands n, Keeps host rounds I V k) (hs : I s)
    (he : Enters host rounds n s m t) : I t := by
  cases he with
  | @statement label before _ after place _ _ hl hb =>
    rw [operands_statements hl] at h
    have hlands : (evalAll host rounds before).Lands s (fun _ u => I u) fun _ u => I u := by
      refine lands_evalAll before hs ?_
      rintro xs k ys u rfl - hu
      exact (h k (by simp) u hu).weaken fun _ _ _ hv => hv.1
    exact (Run.lands_of_ok hb).mp hlands
  | source => exact hs
  | @argument name before _ after p place _ _ vs hvs =>
    have hlands : (evalArgs host rounds before).Lands s (fun vs u => I u ∧ ∀ v ∈ vs, V v)
        fun _ u => I u := by
      refine lands_evalArgs before hs ?_
      rintro xs k ys u vs rfl - hu
      exact h k (by simp [operands]) u hu
    exact ((Run.lands_of_ok hvs).mp hlands).1
  | operand => exact hs
  | left => exact hs
  | right ha =>
    rw [operands_binary] at h
    exact (h _ (List.mem_cons_self ..)).of_eval hs ha
  | condition _ => exact hs
  | body _ _ hmet | otherwise hmet =>
    rw [operands_conditional] at h
    exact (h _ (List.mem_cons_self ..)).of_check hs hmet
  | round _ _ hmet hu =>
    rw [operands_conditional] at h
    have hc := h _ (List.mem_cons_self ..)
    exact hc.of_rounds (h _ (by simp)) (hc.of_check hs hmet) hu
  | again _ _ hmet hu hv =>
    rw [operands_conditional] at h
    have hc := h _ (List.mem_cons_self ..)
    have hb := h _ (List.mem_cons_of_mem _ (List.mem_cons_self ..))
    exact hb.of_once (hc.of_rounds hb (hc.of_check hs hmet) hu) hv
  | branch => exact hs

theorem state_of_reaches (h : ∀ k, Keeps host rounds I V k) (hs : I s)
    (hr : Reaches host rounds n s m t) : I t := by
  induction hr with
  | here => exact hs
  | into he _ ih => exact ih (state_of_enters (fun k _ => h k) hs he)

end

end Scriptlet
