import Scriptlet.Proofs.Calling
import Scriptlet.Proofs.Visiting
/-!
# What a run puts on record

An assignment that comes to its value and a call that comes to its function are put on record, and
nothing else is. What is recorded of a run is compared with what it does (`Performed`): an act is
known by its node, the state that the node is evaluated from, and the state in which it acts. A run
that is put together from others has their acts, one after the other (`Run.Audits`), and a node acts
by itself at most once, behind its children. Main statement: for every node and state there is one
list of acts that holds all of them, each once and in the order in which they happen, and what the
node records is what this list says (`audited`).
-/

namespace Scriptlet

open Source (Keyword Level)

inductive Record where
  | bind (name : String) (v : Value)
  | call (name : String) (count : Nat)

def Record.event : Record → Event
  | bind name v => .bind name v
  | call name count => .call name count

def Event.record? : Event → Option Record
  | bind name v => some (.bind name v)
  | call name count => some (.call name count)
  | enter .. | print _ => none

/-- The records in a log whose latest event comes first, in the order in which they were made. -/
def Event.records (log : List Event) : List Record := log.reverse.filterMap record?

/-- Something that a node does: where it started, what is recorded of it, and in which state. -/
structure Act where
  node : Node
  start : State
  record : Record
  state : State

namespace Act

def log (x : Act) : List Event := x.record.event :: x.state.log

/-- When the one act is done, the other is in the log. -/
def Before (x y : Act) : Prop := x.log <:+ y.state.log

end Act

section

variable (host : Host) (rounds : Nat)

/-- A node, evaluated from a state, does something of its own in a state: it binds a name once its
source has come to a value, or calls a function once its arguments have come to values and its name
is bound to a function. -/
inductive Acts : Node → State → Record → State → Prop where
  | bound {name : String} {source : Node} {p place : Place} {s t : State} {v : Value}
      (value : eval host rounds source s = (.ok v, t)) :
      Acts (.tree .assignment [.token .identifier name p, source] place) s (.bind name v) t
  | called {name : String} {args : List Node} {p place : Place} {s t : State} {vs : List Value}
      {c : Callable} (values : evalArgs host rounds args s = (.ok vs, t))
      (callee : t.env.get? name = some (.callable c)) :
      Acts (.tree .functionCall (.token .identifier name p :: args) place) s
        (.call name vs.length) t

/-- In the course of evaluating a node from a state, something is done. -/
structure Performed (n : Node) (s : State) (x : Act) : Prop where
  reached : Reaches host rounds n s x.node x.start
  done : Acts host rounds x.node x.start x.record x.state

end

section

variable {host : Host} {rounds : Nat} {n m : Node} {s t u : State} {x y : Act}

theorem performed_iff : Performed host rounds n s x ↔
    (x.node = n ∧ x.start = s ∧ Acts host rounds n s x.record x.state) ∨
      ∃ m t, Enters host rounds n s m t ∧ Performed host rounds m t x := by
  constructor
  · rintro ⟨reached, done⟩
    cases reached with
    | here => exact .inl ⟨rfl, rfl, done⟩
    | into he rest => exact .inr ⟨_, _, he, rest, done⟩
  · rintro (⟨rfl, rfl, done⟩ | ⟨m, t, he, hm⟩)
    · exact ⟨.here, done⟩
    · exact ⟨.into he hm.reached, hm.done⟩

/-! ## Logs -/

theorem record?_event (r : Record) : r.event.record? = some r := by
  cases r <;> rfl

theorem records_cons (e : Event) (log : List Event) :
    Event.records (e :: log) = Event.records log ++ e.record?.toList := by
  rw [Event.records, List.reverse_cons, List.filterMap_append]
  cases h : e.record? <;> simp [Event.records, h]

theorem records_log (x : Act) : Event.records x.log = Event.records x.state.log ++ [x.record] := by
  rw [Act.log, records_cons, record?_event]
  rfl

/-- A list of acts is a full account of the time between two logs. -/
structure Audit (P : Act → Prop) (earlier later : List Event) (xs : List Act) : Prop where
  complete : ∀ x, x ∈ xs ↔ P x
  ordered : xs.Pairwise Act.Before
  within : ∀ x ∈ xs, earlier <:+ x.state.log ∧ x.log <:+ later
  grows : earlier <:+ later
  records : Event.records later = Event.records earlier ++ xs.map (·.record)

namespace Audit

variable {P Q : Act → Prop} {log log' log'' : List Event} {xs ys : List Act}

theorem none (grows : log <:+ log') (records : Event.records log' = Event.records log) :
    Audit (fun _ => False) log log' [] where
  complete _ := ⟨fun hx => absurd hx List.not_mem_nil, False.elim⟩
  ordered := .nil
  within _ hx := absurd hx List.not_mem_nil
  grows := grows
  records := by rw [records, List.map_nil, List.append_nil]

theorem one (x : Act) : Audit (· = x) x.state.log x.log [x] where
  complete _ := List.mem_singleton
  ordered := List.pairwise_singleton ..
  within y hy := by
    rw [List.mem_singleton.mp hy]
    exact ⟨List.suffix_refl _, List.suffix_refl _⟩
  grows := List.suffix_cons ..
  records := records_log x

theorem append (h : Audit P log log' xs) (h' : Audit Q log' log'' ys) :
    Audit (fun x => P x ∨ Q x) log log'' (xs ++ ys) where
  complete x := by rw [List.mem_append, h.complete, h'.complete]
  ordered := List.pairwise_append.mpr ⟨h.ordered, h'.ordered, fun x hx y hy =>
    (h.within x hx).2.trans (h'.within y hy).1⟩
  within x hx := by
    rcases List.mem_append.mp hx with hx | hx
    · exact ⟨(h.within x hx).1, (h.within x hx).2.trans h'.grows⟩
    · exact ⟨h.grows.trans (h'.within x hx).1, (h'.within x hx).2⟩
  grows := h.grows.trans h'.grows
  records := by rw [h'.records, h.records, List.map_append, List.append_assoc]

theorem congr (h : Audit P log log' xs) (hPQ : ∀ x, P x ↔ Q x) : Audit Q log log' xs :=
  { h with complete := fun x => (h.complete x).trans (hPQ x) }

end Audit

/-! ## Parts of a run -/

variable {α β : Type}

def Run.Audits (r : Run α) (s : State) (P : Act → Prop) : Prop :=
  r.Ends s → ∃ xs, Audit P s.log (r s).2.log xs

namespace Run

variable {P Q : Act → Prop}

theorem Audits.congr {r : Run α} (h : r.Audits s P) (hPQ : ∀ x, P x ↔ Q x) : r.Audits s Q := by
  intro hends
  obtain ⟨xs, hxs⟩ := h hends
  exact ⟨xs, hxs.congr hPQ⟩

theorem audits_of_log {r : Run α} (h : (r s).2.log = s.log) : r.Audits s fun _ => False :=
  fun _ => ⟨[], h ▸ .none (List.suffix_refl _) rfl⟩

theorem audits_pure (a : α) : (pure a : Run α).Audits s fun _ => False := audits_of_log rfl

theorem audits_fail (f : Fault) : (fail f : Run α).Audits s fun _ => False := audits_of_log rfl

theorem log_ofExcept (x : Except Fault α) : (ofExcept x s).2.log = s.log := by
  cases x <;> rfl

theorem audits_ofExcept (x : Except Fault α) : (ofExcept x).Audits s fun _ => False :=
  audits_of_log (log_ofExcept x)

theorem audits_record {e : Event} (h : e.record? = none) :
    (record e).Audits s fun _ => False := by
  refine fun _ => ⟨[], .none (List.suffix_cons ..) ?_⟩
  show Event.records (e :: s.log) = _
  rw [records_cons, h]
  exact List.append_nil _

theorem audits_print (text : String) : (print text).Audits s fun _ => False := by
  unfold print
  split
  · exact audits_pure ()
  · exact audits_record rfl

/-- The acts of a run with a second part are those of the first part and, once that has come to a
value, those of the second. -/
theorem Audits.bind {r : Run α} {k : α → Run β} {Q : α → State → Act → Prop} (hr : r.Audits s P)
    (hk : ∀ a t, r s = (.ok a, t) → (k a).Audits t (Q a t)) :
    (r >>= k).Audits s fun x => P x ∨ ∃ a t, r s = (.ok a, t) ∧ Q a t x := by
  intro hends
  obtain ⟨xs, hxs⟩ := hr hends.of_bind
  rcases hr : r s with ⟨stop | a, t⟩
  · rw [bind_error hr]
    rw [hr] at hxs
    refine ⟨xs, hxs.congr fun x => ⟨.inl, fun hx => hx.resolve_right ?_⟩⟩
    rintro ⟨a, u, ⟨⟩, -⟩
  · have hbind : (r >>= k) s = k a t := bind_ok hr k
    obtain ⟨ys, hys⟩ := hk a t hr (ends_congr hbind hends)
    rw [hr] at hxs
    rw [hbind]
    refine ⟨xs ++ ys, (hxs.append hys).congr fun x =>
      or_congr_right ⟨fun hx => ⟨a, t, rfl, hx⟩, ?_⟩⟩
    rintro ⟨b, u, ⟨⟩, hx⟩
    exact hx

/-- A second part that does nothing adds no acts. -/
theorem Audits.bind_still {r : Run α} {k : α → Run β} (hr : r.Audits s P)
    (hk : ∀ a t, (k a).Audits t fun _ => False) : (r >>= k).Audits s P := by
  refine (hr.bind fun a t _ => hk a t).congr fun x => ?_
  simp only [and_false, exists_false, or_false]

theorem Audits.located {r : Run α} (h : r.Audits s P) (place : Place) :
    (located place r).Audits s P := by
  intro hends
  rw [log_located]
  exact h hends.of_located

/-- The acts of a loop are those of its bodies and checks, round after round. -/
theorem audits_repeatWhile {check : Run Bool} {once : Run Unit} {C B : State → Act → Prop}
    (hcheck : ∀ t, check.Audits t (C t)) (honce : ∀ t, once.Audits t (B t)) (rounds : Nat)
    (s : State) :
    (repeatWhile check once rounds).Audits s fun x =>
      ∃ t, Rounds check once s t ∧ (B t x ∨ ∃ u, once t = (.ok (), u) ∧ C u x) := by
  induction rounds generalizing s with
  | zero => exact fun hends => absurd rfl (hends s)
  | succ rounds ih =>
    rw [repeatWhile]
    -- the rounds behind are taken from the front, so the first one is a case of its own
    refine ((honce s).bind (Q := fun _ t x => C t x ∨ ∃ met u, check t = (.ok met, u) ∧
      (met = true ∧ ∃ v, Rounds check once u v ∧
        (B v x ∨ ∃ w, once v = (.ok (), w) ∧ C w x))) fun _ t _ => ?_).congr fun x => ?_
    · refine (hcheck t).bind fun met u _ => ?_
      cases met with
      | false =>
        refine (audits_pure ()).congr fun x => ?_
        simp
      | true => exact (ih u).congr fun x => (and_iff_right rfl).symm
    · constructor
      · rintro (hx | ⟨_, t, hb, hx | ⟨_, u, hc, rfl, v, behind, hx⟩⟩)
        · exact ⟨s, .none, .inl hx⟩
        · exact ⟨s, .none, .inr ⟨t, hb, hx⟩⟩
        · exact ⟨v, .more hb hc behind, hx⟩
      · rintro ⟨v, behind, hx⟩
        cases behind with
        | none =>
          rcases hx with hx | ⟨t, hb, hx⟩
          · exact .inl hx
          · exact .inr ⟨(), t, hb, .inl hx⟩
        | more hb hc rest => exact .inr ⟨(), _, hb, .inr ⟨_, _, hc, rfl, v, rest, hx⟩⟩

end Run

open Run

/-! ## One node -/

theorem log_lookUp (name : String) : (lookUp name s).2.log = s.log := by
  simp only [lookUp, bind_apply, environment]
  cases s.env.get? name <;> rfl

theorem audits_carryOut (c : Callable) (vs : List Value) :
    (carryOut host c vs).Audits s fun _ => False := by
  refine (audits_record rfl).bind_still fun _ _ => ?_
  refine (audits_print _).bind_still fun _ _ => ?_
  cases (host.reply c.ident vs).answer with
  | value v | nothing => exact audits_pure _
  | foreign | incomputable | rejected | fails => exact audits_fail _

theorem audits_invoke (c : Callable) (vs : List Value) :
    (invoke host c vs).Audits s fun _ => False := by
  rcases invoke_cases host c vs s with ⟨f, hr⟩ | ⟨-, hcarry⟩
  · exact audits_of_log (by rw [hr])
  · rw [hcarry]
    exact audits_carryOut c vs

theorem audits_define {name : String} {v : Value} (hx : x.record = .bind name v)
    (hs : x.state = s) : (Run.bind name v).Audits s (· = x) := by
  subst hs
  have hlog : (Run.bind name v x.state).2.log = x.log := by
    rw [Act.log, hx]
    rfl
  exact fun _ => ⟨[x], hlog ▸ .one x⟩

/-- A call of a name is one act, if the name is bound to a function. -/
theorem audits_callNamed {name : String} {vs : List Value} (hx : x.record = .call name vs.length)
    (hs : x.state = s) :
    (callNamed host name vs).Audits s
      fun y => y = x ∧ ∃ c, s.env.get? name = some (.callable c) := by
  subst hs
  rcases callNamed_cases host name vs x.state with ⟨f, hr, hne⟩ | ⟨c, h, hr⟩
  · refine (audits_of_log (by rw [hr])).congr fun y => ?_
    simp [hne]
  · intro hends
    obtain ⟨xs, hxs⟩ := audits_invoke c vs (ends_congr hr hends)
    have hlog : x.log = .call name vs.length :: x.state.log := by
      rw [Act.log, hx]
      rfl
    have hone := Audit.one x
    rw [hlog] at hone
    rw [hr]
    refine ⟨[x] ++ xs, (hone.append hxs).congr fun y => ?_⟩
    simp [h]

variable (host rounds) in
def Audited (n : Node) : Prop :=
  ∀ s, (eval host rounds n).Audits s (Performed host rounds n s)

variable {w : Keyword} {word : String} {c b : Node} {level : Level}

theorem evalAll_eq (ns : List Node) :
    evalAll host rounds ns = evalArgs host rounds ns >>= fun _ => pure () := by
  induction ns with
  | nil => rw [evalAll, evalArgs, pure_bind]
  | cons n ns ih => simp only [evalAll, evalArgs, ih, bind_assoc, pure_bind]

theorem evalAll_ok {ns : List Node} :
    evalAll host rounds ns s = (.ok (), t) ↔ ∃ vs, evalArgs host rounds ns s = (.ok vs, t) := by
  rw [evalAll_eq]
  constructor
  · intro h
    obtain ⟨vs, u, hvs, h⟩ := exists_of_bind_ok h
    cases h
    exact ⟨vs, hvs⟩
  · rintro ⟨vs, hvs⟩
    rw [bind_ok hvs]
    rfl

/-- The acts of a list of nodes are those of each, from where the nodes before it have led. -/
theorem audits_evalArgs (ns : List Node)
    (h : ∀ m ∈ ns, Audited host rounds m) (s : State) :
    (evalArgs host rounds ns).Audits s fun x => ∃ before m after vs t, ns = before ++ m :: after ∧
      evalArgs host rounds before s = (.ok vs, t) ∧ Performed host rounds m t x := by
  induction ns generalizing s with
  | nil =>
    rw [evalArgs]
    refine (audits_pure _).congr fun x => ?_
    simp
  | cons n ns ih =>
    rw [evalArgs]
    obtain ⟨hn, hns⟩ := List.forall_mem_cons.mp h
    refine ((hn s).bind fun v t hv => (ih hns t).bind_still fun vs u => audits_pure _).congr
      fun x => ?_
    constructor
    · rintro (hx | ⟨v, t, hv, before, m, after, vs, u, rfl, hvs, hx⟩)
      · exact ⟨[], n, ns, [], s, rfl, by rw [evalArgs, pure_apply], hx⟩
      · refine ⟨n :: before, m, after, v :: vs, u, rfl, ?_, hx⟩
        rw [evalArgs, bind_ok hv, bind_ok hvs, pure_apply]
    · rintro ⟨before, m, after, vs, u, hns, hvs, hx⟩
      cases before with
      | nil =>
        cases hns
        rw [evalArgs] at hvs
        cases hvs
        exact .inl hx
      | cons k before =>
        cases hns
        rw [evalArgs] at hvs
        obtain ⟨v, t, hv, hvs⟩ := exists_of_bind_ok hvs
        obtain ⟨ws, t', hws, hvs⟩ := exists_of_bind_ok hvs
        cases hvs
        exact .inr ⟨v, t, hv, before, m, after, ws, u, rfl, hws, hx⟩

theorem audits_check (h : Audited host rounds c) (t : State) :
    (check host rounds w word c).Audits t (Performed host rounds c t) :=
  (h t).bind_still fun _ _ => audits_ofExcept _

theorem audits_once (h : Audited host rounds b) (t : State) :
    (once host rounds b).Audits t (Performed host rounds b t) :=
  (h t).bind_still fun _ _ => audits_pure ()

/-- What a node does is done after it has started, and recorded when it has come to its end. -/
theorem log_of_acts {r : Record} (h : Acts host rounds n s r t)
    (hends : (eval host rounds n).Ends s) :
    s.log <:+ t.log ∧ r.event :: t.log <:+ (eval host rounds n s).2.log := by
  cases h with
  | @bound name source p place _ _ v hv =>
    have hsource := (grows_eval source).suffix (ends_of_ok hv)
    rw [hv] at hsource
    rw [eval_of_completes hv]
    exact ⟨hsource, List.suffix_refl _⟩
  | @called name args p place _ _ vs c hvs hc =>
    have hargs := (grows_evalArgs args).suffix (ends_of_ok hvs)
    rw [hvs] at hargs
    have hcall : callNamed host name vs t = _ := callNamed_callable hc
    obtain ⟨xs, hxs⟩ := audits_invoke c vs
      (ends_congr hcall (ends_congr (eval_of_args hvs) hends).of_located)
    rw [eval_of_args hvs, log_located, hcall]
    exact ⟨hargs, hxs.grows⟩

theorem log_of_performed (h : Performed host rounds n s x) (hends : (eval host rounds n).Ends s) :
    s.log <:+ x.state.log ∧ x.log <:+ (eval host rounds n s).2.log := by
  have hstart : s.log <:+ x.start.log :=
    state_of_reaches (fun k => keeps_log host rounds s.log k) (List.suffix_refl _) h.reached
  obtain ⟨hstate, hlog⟩ := log_of_acts h.done (ends_of_reaches h.reached hends)
  exact ⟨hstart.trans hstate, hlog.trans (log_of_reaches h.reached hends)⟩

/-- A node that leaves no event behind does nothing. -/
theorem audits_still (hlog : (eval host rounds n s).2.log = s.log) :
    (eval host rounds n).Audits s (Performed host rounds n s) := by
  intro hends
  refine (audits_of_log hlog).congr (fun x => ⟨False.elim, fun hx => ?_⟩) hends
  obtain ⟨hstate, hlater⟩ := log_of_performed hx hends
  have hlength := hlater.length_le.trans_eq (congrArg List.length hlog)
  have hle := hstate.length_le
  rw [Act.log, List.length_cons] at hlength
  omega

/-! ## Forms -/

/-- What is done in the course of a node that does nothing by itself is done by its children. -/
theorem performed_iff_of_not_acts (h : ∀ r t, ¬Acts host rounds n s r t) :
    Performed host rounds n s x ↔
      ∃ m t, Enters host rounds n s m t ∧ Performed host rounds m t x := by
  rw [performed_iff]
  exact or_iff_right fun hx => h _ _ hx.2.2

theorem audited_statements {label : Label} (hl : label = .program ∨ label = .block)
    {kids : List Node} {place : Place} (h : ∀ m ∈ kids, Audited host rounds m) :
    Audited host rounds (.tree label kids place) := by
  intro s
  rw [eval_statements host rounds hl, evalAll_eq]
  have hkids := ((audits_evalArgs kids h s).bind_still fun _ _ => audits_pure ()).bind_still
    fun _ _ => audits_pure Value.null
  have hnot : ∀ r t, ¬Acts host rounds (.tree label kids place) s r t := by
    intro r t hacts
    rcases hl with rfl | rfl <;> cases hacts
  refine (hkids.located place).congr fun x => .trans ?_ (performed_iff_of_not_acts hnot).symm
  constructor
  · rintro ⟨before, m, after, vs, t, rfl, hvs, hx⟩
    exact ⟨m, t, .statement hl (evalAll_ok.mpr ⟨vs, hvs⟩), hx⟩
  · rintro ⟨m, t, he, hx⟩
    obtain ⟨before, after, rfl, hb⟩ : ∃ before after, kids = before ++ m :: after ∧
        evalAll host rounds before s = (.ok (), t) := by
      have hvisits := visits_of_enters he
      rcases hl with rfl | rfl
      · exact hvisits
      · exact hvisits
    obtain ⟨vs, hvs⟩ := evalAll_ok.mp hb
    exact ⟨before, m, after, vs, t, rfl, hvs, hx⟩

theorem audited_assignment {name : String} {source : Node} {p place : Place}
    (h : Audited host rounds source) :
    Audited host rounds (.tree .assignment [.token .identifier name p, source] place) := by
  intro s
  rw [eval, expectName, pure_bind]
  have hbound (v : Value) (t : State) := (audits_define (s := t)
    (x := Act.mk (.tree .assignment [.token .identifier name p, source] place) s (.bind name v) t)
    rfl rfl).bind_still fun _ _ => audits_pure Value.null
  refine (((h s).bind fun v t _ => hbound v t).located place).congr
    fun x => .trans ?_ performed_iff.symm
  constructor
  · rintro (hx | ⟨v, t, hv, rfl⟩)
    · exact .inr ⟨source, s, .source, hx⟩
    · exact .inl ⟨rfl, rfl, .bound hv⟩
  · rintro (⟨hn, hs, hacts⟩ | ⟨m, t, he, hx⟩)
    · obtain ⟨node, start, record, state⟩ := x
      cases hn
      cases hs
      cases hacts with
      | bound hv => exact .inr ⟨_, _, hv, rfl⟩
    · obtain ⟨target, hkids, rfl⟩ := visits_of_enters he
      cases hkids
      exact .inl hx

theorem audited_call {name : String} {args : List Node} {p place : Place}
    (h : ∀ m ∈ args, Audited host rounds m) :
    Audited host rounds (.tree .functionCall (.token .identifier name p :: args) place) := by
  intro s
  rw [eval, expectName, pure_bind]
  have hcalled (vs : List Value) (t : State) : (callNamed host name vs).Audits t fun x =>
      x = Act.mk (.tree .functionCall (.token .identifier name p :: args) place) s
        (.call name vs.length) t ∧ ∃ c, t.env.get? name = some (.callable c) :=
    audits_callNamed (x := Act.mk _ s (.call name vs.length) t) rfl rfl
  refine (((audits_evalArgs args h s).bind fun vs t _ => hcalled vs t).located place).congr
    fun x => .trans ?_ performed_iff.symm
  constructor
  · rintro (⟨before, m, after, vs, t, rfl, hvs, hx⟩ | ⟨vs, t, hvs, rfl, c, hc⟩)
    · exact .inr ⟨m, t, .argument hvs, hx⟩
    · exact .inl ⟨rfl, rfl, .called hvs hc⟩
  · rintro (⟨hn, hs, hacts⟩ | ⟨m, t, he, hx⟩)
    · obtain ⟨node, start, record, state⟩ := x
      cases hn
      cases hs
      cases hacts with
      | called hvs hc => exact .inr ⟨_, _, hvs, rfl, _, hc⟩
    · obtain ⟨callee, before, after, vs, hkids, hvs⟩ := visits_of_enters he
      cases hkids
      exact .inl ⟨before, m, after, vs, t, rfl, hvs, hx⟩

/-- A node with one child that does nothing by itself does what the child does. -/
theorem audited_single {label : Label} (hl : label = .negate ∨ label = .elseBlock) {place : Place}
    (h : Audited host rounds m) : Audited host rounds (.tree label [m] place) := by
  intro s
  have hrun : (eval host rounds (.tree label [m] place)).Audits s (Performed host rounds m s) := by
    rcases hl with rfl | rfl
    · rw [eval]
      exact ((h s).bind_still fun v _ => audits_ofExcept _).located place
    · rw [eval]
      exact (h s).located place
  have hnot : ∀ r t, ¬Acts host rounds (.tree label [m] place) s r t := by
    intro r t hacts
    rcases hl with rfl | rfl <;> cases hacts
  refine hrun.congr fun x => .trans ?_ (performed_iff_of_not_acts hnot).symm
  constructor
  · intro hx
    rcases hl with rfl | rfl
    · exact ⟨m, s, .operand, hx⟩
    · exact ⟨m, s, .branch, hx⟩
  · rintro ⟨k, t, he, hx⟩
    obtain ⟨hkids, rfl⟩ : [m] = [k] ∧ t = s := by
      have hvisits := visits_of_enters he
      rcases hl with rfl | rfl
      · exact hvisits
      · exact hvisits
    cases hkids
    exact hx

theorem audited_binary {lhs rhs : Node} {op : String} {p place : Place}
    (hlhs : Audited host rounds lhs) (hrhs : Audited host rounds rhs) :
    Audited host rounds (.tree level.label [lhs, .token level.tokenKind op p, rhs] place) := by
  intro s
  rw [eval_binary]
  have hoperands := (hlhs s).bind fun a t _ => (hrhs t).bind_still fun b _ =>
    audits_ofExcept (applyOperator level op a b)
  have hnot : ∀ r t, ¬Acts host rounds
      (.tree level.label [lhs, .token level.tokenKind op p, rhs] place) s r t := by
    intro r t hacts
    cases level <;> cases hacts
  refine (hoperands.located place).congr fun x => .trans ?_ (performed_iff_of_not_acts hnot).symm
  constructor
  · rintro (hx | ⟨a, t, ha, hx⟩)
    · exact ⟨lhs, s, .left, hx⟩
    · exact ⟨rhs, t, .right ha, hx⟩
  · rintro ⟨m, t, he, hx⟩
    have hvisits : (m = lhs ∧ t = s) ∨ (m = rhs ∧ ∃ a, eval host rounds lhs s = (.ok a, t)) := by
      have hvisits := visits_of_enters he
      cases level <;> exact hvisits
    rcases hvisits with ⟨rfl, rfl⟩ | ⟨rfl, a, ha⟩
    · exact .inl hx
    · exact .inr ⟨a, t, ha, hx⟩

theorem audits_proceed (hc : Audited host rounds c) (hb : Audited host rounds b) (s : State) :
    (proceed host rounds w word c b).Audits s fun x =>
      ∃ m t, Proceeds host rounds w word c b s m t ∧ Performed host rounds m t x := by
  have hif : (once host rounds b).Audits s (Performed host rounds b s) := audits_once hb s
  have hcheck : ∀ t, (check host rounds w word c).Audits t (Performed host rounds c t) :=
    audits_check hc
  have hwhile := audits_repeatWhile hcheck (audits_once hb) rounds s
  cases w with
  | ifWord | unlessWord =>
    refine hif.congr fun x => ⟨fun hx => ⟨b, s, ⟨rfl, rfl⟩, hx⟩, ?_⟩
    rintro ⟨m, t, ⟨rfl, rfl⟩, hx⟩
    exact hx
  | whileWord | untilWord =>
    refine hwhile.congr fun x => ⟨?_, ?_⟩
    · rintro ⟨u, behind, hx | ⟨v, hv, hx⟩⟩
      · exact ⟨b, u, ⟨u, behind, .inl ⟨rfl, rfl⟩⟩, hx⟩
      · exact ⟨c, v, ⟨u, behind, .inr ⟨rfl, hv⟩⟩, hx⟩
    · rintro ⟨m, t, ⟨u, behind, ⟨rfl, rfl⟩ | ⟨rfl, ht⟩⟩, hx⟩
      · exact ⟨t, behind, .inl hx⟩
      · exact ⟨u, behind, .inr ⟨t, ht, hx⟩⟩

theorem audits_evalElse {otherwise : List Node} (single : otherwise.length ≤ 1)
    (h : ∀ m ∈ otherwise, Audited host rounds m) (t : State) :
    (evalElse host rounds otherwise).Audits t fun x =>
      ∃ m, otherwise = [m] ∧ Performed host rounds m t x := by
  rcases otherwise with _ | ⟨m, _ | ⟨m', more⟩⟩
  · rw [evalElse]
    refine (audits_pure _).congr fun x => ?_
    simp
  · rw [evalElse]
    refine (h m (List.mem_singleton_self m) t).congr fun x => ?_
    simp
  · exact absurd single (by simp)

section

variable {otherwise : List Node} {p place : Place}

/-- A conditional does what its condition does, and then what its body or its else branch does. -/
theorem audited_conditional (single : otherwise.length ≤ 1)
    (h : ∀ m ∈ c :: b :: otherwise, Audited host rounds m) :
    Audited host rounds
      (.tree w.label (.token w.tokenKind word p :: c :: b :: otherwise) place) := by
  intro s
  rw [List.forall_mem_cons, List.forall_mem_cons] at h
  obtain ⟨hc, hb, hotherwise⟩ := h
  rw [eval_conditional host rounds w word c b p place single]
  have hcheck : (check host rounds w word c).Audits s (Performed host rounds c s) :=
    audits_check hc s
  have hparts := hcheck.bind
    (k := fun met => if met then do proceed host rounds w word c b; pure Value.null
      else evalElse host rounds otherwise)
    (Q := fun met t x => ∃ m u, Performed host rounds m u x ∧
      ((met = true ∧ Proceeds host rounds w word c b t m u) ∨
        (met = false ∧ otherwise = [m] ∧ u = t))) fun met t _ => by
      cases met with
      | true =>
        rw [if_pos rfl]
        refine ((audits_proceed hc hb t).bind_still fun _ _ => audits_pure Value.null).congr
          fun x => ?_
        simp [and_comm]
      | false =>
        rw [if_neg (by decide)]
        refine (audits_evalElse single hotherwise t).congr fun x => ?_
        simp [and_comm]
  have hnot : ∀ r t, ¬Acts host rounds
      (.tree w.label (.token w.tokenKind word p :: c :: b :: otherwise) place) s r t := by
    intro r t hacts
    cases w <;> cases hacts
  refine (hparts.located place).congr fun x => .trans ?_ (performed_iff_of_not_acts hnot).symm
  simp only [enters_conditional single]
  constructor
  · rintro (hx | ⟨met, t, hmet, m, u, hx, ⟨rfl, hproceeds⟩ | ⟨rfl, hm, rfl⟩⟩)
    · exact ⟨c, s, .inl ⟨rfl, rfl⟩, hx⟩
    · exact ⟨m, u, .inr (.inl ⟨t, hmet, hproceeds⟩), hx⟩
    · exact ⟨m, u, .inr (.inr ⟨hm, hmet⟩), hx⟩
  · rintro ⟨m, u, ⟨rfl, rfl⟩ | ⟨t, hmet, hproceeds⟩ | ⟨hm, hmet⟩, hx⟩
    · exact .inl hx
    · exact .inr ⟨true, t, hmet, m, u, hx, .inl ⟨rfl, hproceeds⟩⟩
    · exact .inr ⟨false, u, hmet, m, u, hx, .inr ⟨rfl, hm, rfl⟩⟩

end

/-- What a node does is one act after the other, and these are what it records. -/
theorem audited (n : Node) : Audited host rounds n := by
  induction n using operands_induction with
  | h n ih =>
    cases form n with
    -- a node that does not fit its label may have children, but it comes to none of them
    | misfit hf h =>
      refine fun s => audits_still ?_
      rw [h host rounds, log_located]
      rfl
    | name text hn h =>
      refine fun s => audits_still ?_
      rw [h host rounds, log_located]
      exact log_lookUp text
    | literal hn h =>
      refine fun s => audits_still ?_
      rw [h host rounds, log_located]
      exact log_ofExcept _
    | @statements label hl kids place =>
      rw [operands_statements hl] at ih
      exact audited_statements hl ih
    | assignment name p source place =>
      exact audited_assignment (ih source (List.mem_singleton_self _))
    | call name p args place => exact audited_call ih
    | negate operand place =>
      exact audited_single (.inl rfl) (ih operand (List.mem_singleton_self _))
    | binary level lhs rhs op p place =>
      rw [operands_binary] at ih
      exact audited_binary (ih lhs (List.mem_cons_self ..))
        (ih rhs (List.mem_cons_of_mem _ (List.mem_singleton_self _)))
    | @conditional w word c b otherwise p place single =>
      rw [operands_conditional] at ih
      exact audited_conditional single ih
    | elseBlock body place =>
      exact audited_single (.inr rfl) (ih body (List.mem_singleton_self _))

end

end Scriptlet
