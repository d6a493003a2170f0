import Scriptlet.Proofs.Continuing
import Scriptlet.Proofs.Literals
import Scriptlet.Proofs.Rendering
import Scriptlet.Proofs.Soundness
import Scriptlet.Workspace
/-!
# What escapes from a run

A problem of a run is one of the program, which a caller reports, or it escapes. From a source that
is read, with functions of the host that fail in documented ways, only this escapes: a whole number
in the source with more digits than can be read, and, where the host brings in whole numbers that
are no words, one that is too large for a float or for a text. Main statements: these are all
(`problem_of_documented`), and the first does escape (`result_of_overlong`).
-/

namespace Scriptlet

open Source (Level Program read)

/-- A source has a whole number with so many digits that it cannot be read. -/
def Source.Overlong (source : String) (count : Nat) : Prop :=
  Decimal.digitLimit < count ∧
    ∃ t ∈ (scan source.toList).tokens, t.terminal = .integer ∧ t.text.length = count

/-- The functions of a host among some, given arguments in the number they ask for, fail with faults
of the language if they do not fail to compute or reject. -/
def Host.Documented (host : Host) (K : Callable → Prop) : Prop :=
  ∀ c, K c → ∀ (args : List Value) f, (∀ n, c.arity = some n → args.length = n) →
    (host.reply c.ident args).answer = .fails f → f.isNative = true

/-- A fault that there are whole numbers beyond words for. -/
def Fault.Oversized (f : Fault) : Prop := f = .beyondFloats ∨ f = .tooLongToWrite

/-! ## Operators -/

section

variable {f : Fault}

theorem native_of_class {c : FaultClass} (h : f.faultClass = c) (hc : c ≠ .foreign) :
    f.isNative = true := by
  rw [Fault.isNative, h]
  exact bne_iff_ne.mpr hc

theorem oversized_of_asFloat? {v : Value} (h : v.asFloat? = some (.error f)) :
    f.Oversized ∧ ∃ n, v = .int n ∧ ¬ InRange n := by
  refine ⟨.inl (eq_of_asFloat? h), ?_⟩
  cases v with
  | int n =>
    refine ⟨n, rfl, fun hn => ?_⟩
    rw [Value.asFloat?, nearestFloat_of_range hn] at h
    cases h
  | null | float | string | bool | callable => cases h

theorem oversized_of_write {v : Value} (h : v.write = .error f) :
    f.Oversized ∧ ∃ n, v = .int n ∧ ¬ InRange n := by
  refine ⟨.inr (eq_of_write h), ?_⟩
  by_contra hwords
  have hrange : ∀ n, v = .int n → InRange n := by
    intro n hn
    by_contra hrange
    exact hwords ⟨n, hn, hrange⟩
  rw [write_of_range hrange] at h
  cases h

/-- What two parts make fails with the fault of one of them. -/
theorem oversized_of_both {α β : Type} {x y : Except Fault α} {g : α → α → β} {a b : Value}
    (h : (do pure (g (← x) (← y)) : Except Fault β) = .error f)
    (hx : x = .error f → f.Oversized ∧ ∃ n, a = .int n ∧ ¬ InRange n)
    (hy : y = .error f → f.Oversized ∧ ∃ n, b = .int n ∧ ¬ InRange n) :
    f.Oversized ∧ ∃ n, (a = .int n ∨ b = .int n) ∧ ¬ InRange n := by
  rcases both_cases x y g with ⟨_, _, hok⟩ | ⟨e, he, hcause⟩
  · have hbad := hok.symm.trans h
    cases hbad
  · obtain rfl : e = f := Except.error.inj (he.symm.trans h)
    rcases hcause with hcause | hcause
    · obtain ⟨hf, n, hn, hrange⟩ := hx hcause
      exact ⟨hf, n, .inl hn, hrange⟩
    · obtain ⟨hf, n, hn, hrange⟩ := hy hcause
      exact ⟨hf, n, .inr hn, hrange⟩

theorem fault_of_applyArithmetic {op : String} {a b : Value}
    (h : applyArithmetic op a b = .error f) :
    f.isNative = true ∨ f.Oversized ∧ ∃ n, (a = .int n ∨ b = .int n) ∧ ¬ InRange n := by
  unfold applyArithmetic at h
  split at h
  next =>
    cases h
    exact .inl rfl
  next o _ =>
    split at h
    next m n =>
      cases o with
      | add | subtract | multiply => cases h
      | divide =>
        rw [ArithOp.onInts] at h
        split at h <;> cases h
        exact .inl rfl
    next =>
      split at h
      next x y hx hy =>
        refine .inr (oversized_of_both h (fun he => ?_) fun he => ?_)
        · exact oversized_of_asFloat? (he ▸ hx)
        · exact oversized_of_asFloat? (he ▸ hy)
      next =>
        split at h
        · exact .inr (oversized_of_both h oversized_of_write oversized_of_write)
        · cases h
          exact .inl rfl

theorem fault_of_applyComparison {op : String} {a b : Value}
    (h : applyComparison op a b = .error f) :
    f.isNative = true ∨ f.Oversized ∧ ∃ n, (a = .int n ∨ b = .int n) ∧ ¬ InRange n := by
  unfold applyComparison at h
  split at h
  next =>
    cases h
    exact .inl rfl
  next o _ =>
    split at h
    next => cases h
    next =>
      split at h
      next x y hx hy =>
        refine .inr (oversized_of_both h (fun he => ?_) fun he => ?_)
        · exact oversized_of_asFloat? (he ▸ hx)
        · exact oversized_of_asFloat? (he ▸ hy)
      next =>
        cases h
        exact .inl rfl

/-- An operator fails with a fault of the language, or over an operand that is no word. -/
theorem fault_of_applyOperator {level : Level} {op : String} {a b : Value}
    (h : applyOperator level op a b = .error f) :
    f.isNative = true ∨ f.Oversized ∧ ∃ n, (a = .int n ∨ b = .int n) ∧ ¬ InRange n := by
  cases level with
  | comparison =>
    rw [applyOperator] at h
    cases hr : applyComparison op a b with
    | ok r =>
      rw [hr] at h
      cases h
    | error g =>
      rw [hr] at h
      cases h
      exact fault_of_applyComparison hr
  | sum | product => exact fault_of_applyArithmetic h

theorem native_of_negate {v : Value} (h : negate v = .error f) : f.isNative = true := by
  cases v with
  | int | float => cases h
  | null | string | bool | callable =>
    cases h
    rfl

theorem native_of_conditionMet {word wanted : String} {v : Value}
    (h : conditionMet word wanted v = .error f) : f.isNative = true := by
  cases v with
  | bool b => cases h
  | null | int | float | string | callable =>
    cases h
    rfl

end

/-! ## Nodes -/

/-- A fault that may come out of a run of a source with values of some sort: it is one of the
language, or of a whole number in the source that is too long, or of one among the values that is no
word. -/
def Foreseen (source : String) (V : Value → Prop) (f : Fault) : Prop :=
  f.isNative = true ∨ (∃ count, Source.Overlong source count ∧ f = .integerTooLong count) ∨
    f.Oversized ∧ ∃ n, V (.int n) ∧ ¬ InRange n

section

variable {source : String} {program : Program} {host : Host} {rounds : Nat} {I : State → Prop}
  {V : Value → Prop} {n : Node} {s t : State} {f : Fault}

theorem fault_of_literal (hread : read source = .ok program) {kind : TokenKind} {text : String}
    {p : Place} (hin : (Node.token kind text p).Inside program.toNode)
    (h : literalValue kind text = .error f) :
    f.isNative = true ∨ ∃ count, Source.Overlong source count ∧ f = .integerTooLong count := by
  obtain ⟨hspelled, hd⟩ := Source.derives_of_read hread
  obtain ⟨t, ht, hkind, rfl, -⟩ := Source.token_of_inside hd (List.mem_singleton_self _) hin
  rcases fault_of_literalValue hkind (hspelled t ht) h with hf | ⟨hinteger, hlong, hf⟩
  · exact .inl hf
  · exact .inr ⟨t.text.length, ⟨hlong, t, ht, hinteger, rfl⟩, hf⟩

theorem native_of_callFault {args : List Value}
    (documented : host.Documented fun c => V (.callable c)) (h : CallFault host V args f) :
    f.isNative = true := by
  cases h with
  | own h =>
    rcases h with h | h | h
    · exact native_of_class h nofun
    · exact native_of_class h nofun
    · exact native_of_class h nofun
  | native hc count h => exact documented _ hc args f count h

/-- What a node of a program raises is foreseen. -/
theorem foreseen_of_raises (hread : read source = .ok program) (k : Kept host I V)
    (keeps : ∀ m, Keeps host rounds I V m) (documented : host.Documented fun c => V (.callable c))
    (hin : n.Inside program.toNode) (hs : I s) (h : Raises host rounds n s f t) :
    Foreseen source V f := by
  cases h with
  | misfit hf _ => exact .inl (structural_of_misfit? hf).native
  | name _ _ => exact .inl rfl
  | @literal _ kind text p _ _ hn h =>
    have htoken : (Node.token kind text p).Inside program.toNode := by
      rcases hn with ⟨rfl, -⟩ | ⟨place, rfl⟩
      · exact hin
      · exact hin.trans (.kid (List.mem_singleton_self _) .self)
    rcases fault_of_literal hread htoken h with hf | hf
    · exact .inl hf
    · exact .inr (.inl hf)
  | call hvs h => exact .inl (native_of_callFault documented (callFault_of_call k keeps hs hvs h))
  | negate _ h => exact .inl (native_of_negate h)
  | @operator level lhs rhs op _ _ _ u _ a b _ ha hb h =>
    obtain ⟨hu, hVa⟩ := (Run.lands_of_ok ha).mp (keeps lhs s hs)
    obtain ⟨-, hVb⟩ := (Run.lands_of_ok hb).mp (keeps rhs u hu)
    rcases fault_of_applyOperator h with hf | ⟨hf, i, hi, hrange⟩
    · exact .inl hf
    · refine .inr (.inr ⟨hf, i, ?_, hrange⟩)
      rcases hi with rfl | rfl
      · exact hVa
      · exact hVb
  | condition _ h | again _ _ _ _ h => exact .inl (native_of_conditionMet h)

/-- The failures of a program are foreseen. -/
theorem foreseen_of_read (hread : read source = .ok program) (k : Kept host I V)
    (hbind : ∀ {s : State} {name v}, I s → V v → I (s.assign name v))
    (documented : host.Documented fun c => V (.callable c)) (hs : I s) :
    (eval host rounds program.toNode).Lands s (fun _ t => I t)
      fun f t => I t ∧ Foreseen source V f.fault := by
  refine (lands_of_kept k hbind program.toNode hs).mono (fun _ _ _ hv => hv.1) ?_
  rintro f t - ⟨ht, m, u, hreach, hu, hf⟩
  have keeps : ∀ m, Keeps host rounds I V m := keeps_of_kept k hbind
  exact ⟨ht, foreseen_of_raises hread k keeps documented (inside_of_reaches hreach) hu hf⟩

end

/-! ## Whole numbers that are too long -/

def Source.assignmentOf (target : Source.Name) (digits : List Char) : String :=
  String.ofList (target.text ++ ([' ', '=', ' '] ++ digits))

/-- A whole number with too many digits escapes from the run that assigns it. -/
theorem result_of_overlong (setting : Setting) (env : Environment) (target : Source.Name)
    {digits : List Char} (h : Source.IsDigits digits) (hlong : Decimal.digitLimit < digits.length) :
    (setting.runSource env (Source.assignmentOf target digits)).result =
      .error (.failure ⟨.integerTooLong digits.length, none⟩) := by
  have hname := Source.wordTerminal_of_free .line target.free
  have hsource : (Source.assignmentOf target digits).toList =
      Source.written (Source.bindingPieces target.text digits) := by
    simp [Source.assignmentOf, Source.bindingPieces, Source.written]
  obtain ⟨a, b, hread⟩ := Source.read_binding target.spelled hname h hsource
  have hvalue : literalValue .integer (String.ofList digits) =
      .error (.integerTooLong digits.length) := by
    rw [literalValue_of_digits h, if_pos hlong]
  let value : Source.Expr := .literal .integer ⟨String.ofList digits, b⟩
  let statement : Source.Statement := .assign ⟨String.ofList target.text, a⟩ value (a.to b)
  have hliteral : eval setting.host setting.rounds value.toNode ⟨env, []⟩ =
      (.error (.failure ⟨.integerTooLong digits.length, none⟩), ⟨env, []⟩) := by
    change eval _ _ (.tree .constant [.token .integer _ (.span b)] (.span b)) _ = _
    rw [eval, hvalue]
    rfl
  have hassignment : eval setting.host setting.rounds statement.toNode ⟨env, []⟩ =
      (.error (.failure ⟨.integerTooLong digits.length, none⟩), ⟨env, []⟩) := by
    change eval _ _ (.tree .assignment [.token .identifier _ _, value.toNode] _) _ = _
    rw [eval, expectName, pure_bind, Run.located, Run.bind_error hliteral]
    rfl
  have hprogram : eval setting.host setting.rounds
      (Program.toNode ⟨[statement], some (a.to b)⟩) ⟨env, []⟩ =
        (.error (.failure ⟨.integerTooLong digits.length, none⟩), ⟨env, []⟩) := by
    change eval _ _ (.tree .program [statement.toNode] _) _ = _
    rw [eval, evalAll, Run.located, Run.bind_error (Run.bind_error hassignment _)]
    rfl
  change read _ = .ok ⟨[statement], some (a.to b)⟩ at hread
  rw [Setting.runSource_of_read hread, hprogram]
  rfl

/-! ## Runs -/

/-- A problem, none of the program, that a source brings about by itself: a loop takes more rounds
than it is allowed, or a whole number has too many digits to be read. -/
inductive Source.Escapes (source : String) : Problem → Prop where
  | rounds : Source.Escapes source .outOfRounds
  | literal {f : Failure} {count : Nat} (h : Source.Overlong source count)
      (hf : f.fault = .integerTooLong count) : Source.Escapes source (.failure f)

/-- A whole number that is no word is brought into a run: the environment binds it, or a function of
the host that the program can come by answers it. -/
inductive Beyond (host : Host) (env : Environment) : Prop where
  | bound {name : String} {n : Int} (h : env.get? name = some (.int n)) (hn : ¬ InRange n) :
      Beyond host env
  | answered {c : Callable} {args : List Value} {n : Int} (hc : Available host env c)
      (h : (host.reply c.ident args).answer = .value (.int n)) (hn : ¬ InRange n) :
      Beyond host env

section

variable {setting : Setting} {env : Environment} {source : String} {I : State → Prop}
  {V : Value → Prop} {K : Callable → Prop} {p : Problem}

/-- The problem of a run is one of the program, or its source or its values bring it about. -/
theorem problem_of_kept (k : Kept setting.host I V)
    (hbind : ∀ {s : State} {name v}, I s → V v → I (s.assign name v))
    (documented : setting.host.Documented fun c => V (.callable c)) (hs : I ⟨env, []⟩)
    (h : (setting.runSource env source).result = .error p) :
    p.ofProgram = true ∨ Source.Escapes source p ∨
      ∃ f, p = .failure f ∧ f.fault.Oversized ∧ ∃ n, V (.int n) ∧ ¬ InRange n := by
  cases hread : read source with
  | error e =>
    rw [Setting.runSource_of_unreadable hread] at h
    cases h
    exact .inl rfl
  | ok program =>
    have hforeseen : (eval setting.host setting.rounds program.toNode).Lands ⟨env, []⟩
        (fun _ t => I t) fun f t => I t ∧ Foreseen source V f.fault :=
      foreseen_of_read hread k hbind documented hs
    rw [Setting.runSource_of_read hread] at h
    rcases hr : eval setting.host setting.rounds program.toNode ⟨env, []⟩ with ⟨_ | _, t⟩
    next why =>
      rw [hr] at h
      cases h
      cases why with
      | outOfRounds => exact .inr (.inl .rounds)
      | failure f =>
        rcases ((Run.lands_of_failure hr).mp hforeseen).2 with hf | ⟨count, hlong, hf⟩ | ⟨hf, hbig⟩
        · exact .inl hf
        · exact .inr (.inl (.literal hlong hf))
        · exact .inr (.inr ⟨f, rfl, hf, hbig⟩)
    next =>
      rw [hr] at h
      cases h

/-- What no step breaks holds after a run, unless it is out of rounds. -/
theorem state_of_runSource (k : Kept setting.host I V)
    (hbind : ∀ {s : State} {name v}, I s → V v → I (s.assign name v)) (hs : I ⟨env, []⟩)
    (h : (setting.runSource env source).result ≠ .error .outOfRounds) :
    I ⟨(setting.runSource env source).env, (setting.runSource env source).log⟩ := by
  cases hread : read source with
  | error e =>
    rw [Setting.runSource_of_unreadable hread]
    exact hs
  | ok program =>
    have hnode : Keeps setting.host setting.rounds I V program.toNode :=
      keeps_of_kept k hbind program.toNode
    have hkeeps := hnode _ hs
    rw [Setting.runSource_of_read hread] at h ⊢
    rcases hr : eval setting.host setting.rounds program.toNode ⟨env, []⟩ with ⟨_ | _, t⟩
    next why =>
      cases why with
      | outOfRounds =>
        rw [hr] at h
        exact absurd rfl h
      | failure f => exact (Run.lands_of_failure hr).mp hkeeps
    next v => exact ((Run.lands_of_ok hr).mp hkeeps).1

theorem Host.Documented.within {host : Host} (h : host.Documented K) :
    host.Documented fun c => Value.Within K (.callable c) :=
  fun c hc => h c (hc c rfl)

theorem Host.Documented.sound {host : Host} (h : host.Documented K) :
    host.Documented fun c => Value.Sound K (.callable c) :=
  fun c hc => h c (hc.within c rfl)

/-- A problem of a run with documented functions is one of the program, or its source brings it
about, or a whole number that is no word. -/
theorem problem_of_documented (documented : setting.host.Documented (Available setting.host env))
    (h : (setting.runSource env source).result = .error p) :
    p.ofProgram = true ∨ Source.Escapes source p ∨
      ∃ f, p = .failure f ∧ f.fault.Oversized ∧ Beyond setting.host env := by
  by_cases hbeyond : Beyond setting.host env
  · rcases problem_of_kept (within_kept available_closed) State.Within.assign documented.within
      (within_start setting.host env []) h with hp | hp | ⟨f, hp, hf, -⟩
    · exact .inl hp
    · exact .inr (.inl hp)
    · exact .inr (.inr ⟨f, hp, hf, hbeyond⟩)
  · have hfaithful : setting.host.Faithful (Available setting.host env) := by
      intro c hc args hargs v hv
      refine ⟨?_, fun d hd => .inr ?_⟩
      · rintro n rfl
        by_contra hn
        exact hbeyond (.answered hc hv hn)
      · exact available_closed c hc args (fun v hv => (hargs v hv).within) v hv d hd
    have hstart : State.Sound (Available setting.host env) ⟨env, []⟩ := by
      refine ⟨fun name v hv => ⟨?_, ?_⟩, List.forall_mem_nil _⟩
      · rintro n rfl
        by_contra hn
        exact hbeyond (.bound hv hn)
      · rintro c rfl
        exact .bound hv
    rcases problem_of_kept (sound_kept hfaithful) State.Sound.assign documented.sound hstart h with
      hp | hp | ⟨f, -, -, n, hV, hn⟩
    · exact .inl hp
    · exact .inr (.inl hp)
    · exact absurd (hV.word n rfl) hn

end

end Scriptlet
