import Scriptlet.Proofs.Continuing
import Scriptlet.Workspace
/-!
# What a run does to its environment

The one step that changes an environment is that of an assignment whose right side has come to a
value (`Completes`). The log says which: a run leaves the environment that it found, overwritten by
the bindings of its log (`keeps_overwrite`), and these are the bindings of the completed assignments
(`lands_explained`, `bind_of_completes`). A tree without an assignment inside leaves the environment
as it is (`keeps_env`), and such is every expression (`plain_expr`). Main statement:
`environment_of_run`.
-/

namespace Scriptlet

open Source (Expr Statement Conditional Otherwise Block Program)

def Node.Assigns (n : Node) (name : String) : Prop :=
  ∃ p source place, (Node.tree .assignment [.token .identifier name p, source] place).Inside n

/-- Evaluation of a node comes to an assignment to a name, and its right side comes to a value, in
some state. -/
inductive Completes (host : Host) (rounds : Nat) (n : Node) (s : State) (name : String) (v : Value)
    (t : State) : Prop where
  | intro {p place : Place} {source : Node} {u : State}
      (reached : Reaches host rounds n s
        (.tree .assignment [.token .identifier name p, source] place) u)
      (value : eval host rounds source u = (.ok v, t))

/-! ## Overwriting -/

namespace Environment

variable {env : Environment} {bs : List (String × Value)} {name : String}

theorem overwrite_append (bs cs : List (String × Value)) :
    env.overwrite (bs ++ cs) = (env.overwrite bs).overwrite cs := by
  rw [overwrite, List.foldl_append]
  rfl

/-- What is not bound anew keeps its value. -/
theorem get?_overwrite_of_not_mem (h : ∀ v, (name, v) ∉ bs) :
    (env.overwrite bs).get? name = env.get? name := by
  induction bs generalizing env with
  | nil => rfl
  | cons b bs ih =>
    have hne : name ≠ b.1 := by
      rintro rfl
      exact h b.2 (List.mem_cons_self ..)
    have hbs : ∀ v, (name, v) ∉ bs := fun v hv => h v (List.mem_cons_of_mem b hv)
    exact (ih hbs).trans (get?_define_of_ne env b.2 hne)

/-- No name disappears. -/
theorem contains_overwrite (bs : List (String × Value)) (h : env.contains name = true) :
    (env.overwrite bs).contains name = true := by
  induction bs generalizing env with
  | nil => exact h
  | cons b bs ih =>
    refine ih ?_
    rw [contains, get?_define]
    split
    · rfl
    · exact h

end Environment

namespace Event

variable {log earlier : List Event} {e : Event} {name : String} {v : Value}

theorem bindings_cons_bind (name : String) (v : Value) (log : List Event) :
    bindings (bind name v :: log) = bindings log ++ [(name, v)] := by
  rw [bindings, List.reverse_cons, List.filterMap_append]
  rfl

theorem bindings_cons (h : ∀ name v, e ≠ bind name v) (log : List Event) :
    bindings (e :: log) = bindings log := by
  rw [bindings, List.reverse_cons, List.filterMap_append]
  cases e with
  | bind name v => exact absurd rfl (h name v)
  | call | enter | print => exact List.append_nil _

/-- Each binding was at some time the latest event. -/
theorem suffix_of_mem_bindings (h : (name, v) ∈ bindings log) :
    ∃ earlier, bind name v :: earlier <:+ log := by
  obtain ⟨e, he, heq⟩ := List.mem_filterMap.mp h
  obtain ⟨later, earlier, rfl⟩ := List.append_of_mem (List.mem_reverse.mp he)
  cases e with
  | bind name' v' =>
    cases heq
    exact ⟨earlier, List.suffix_append ..⟩
  | call | enter | print => cases heq

theorem bind_suffix_cons (h : ∀ name v, e ≠ bind name v)
    (hs : bind name v :: earlier <:+ e :: log) : bind name v :: earlier <:+ log := by
  rcases List.suffix_cons_iff.mp hs with heq | hs
  · exact absurd (List.cons.inj heq).1.symm (h name v)
  · exact hs

end Event

/-! ## Runs -/

section

variable {host : Host} {rounds : Nat} {n m : Node} {s t : State} {env : Environment}

/-- The environment of a run is always the one it started with, overwritten by the bindings of its
log. -/
theorem keeps_overwrite (host : Host) (rounds : Nat) (env : Environment) (n : Node) :
    Keeps host rounds (fun s => s.env = env.overwrite (Event.bindings s.log))
      (fun _ => True) n := by
  refine keeps_of_kept (kept_of_events fun s e he hs => ?_) (fun {s name v} hs _ => ?_) n
  · rw [Event.bindings_cons he]
    exact hs
  · show s.env.define name v = env.overwrite (Event.bindings (.bind name v :: s.log))
    rw [Event.bindings_cons_bind, Environment.overwrite_append, ← hs]
    rfl

/-- Every binding of a log is that of a completed assignment, made when the log was what is behind
it. -/
def State.Explained (host : Host) (rounds : Nat) (n : Node) (s t : State) : Prop :=
  ∀ name v earlier, .bind name v :: earlier <:+ t.log →
    ∃ u, Completes host rounds n s name v u ∧ u.log = earlier

/-- A node that a run reaches adds no binding to the log but of assignments that are completed. -/
theorem lands_explained {root : Node} {start : State} (hreach : Reaches host rounds root start n s)
    (hs : State.Explained host rounds root start s) :
    (eval host rounds n).Lands s (fun _ t => State.Explained host rounds root start t)
      fun _ t => State.Explained host rounds root start t := by
  induction n using operands_induction generalizing s with
  | h n ih =>
    have kept : Kept host (State.Explained host rounds root start) fun _ => True :=
      kept_of_events fun _ _ he hu name v earlier hsuffix =>
        hu name v earlier (Event.bind_suffix_cons he hsuffix)
    have hn : (eval host rounds n).Lands s
        (fun _ t => State.Explained host rounds root start t ∧ True)
        fun f t => ∃ g : Failure, f = g.leaving n.place ∧
          State.Explained host rounds root start t := by
      refine lands_of_enters kept hs (fun m t he ht => ?_) ?_ fun _ _ _ ht => ht
      · have hm := ih m (mem_operands_of_enters host rounds he) (hreach.trans (.into he .here)) ht
        exact hm.weaken fun _ _ _ hu => ⟨hu, trivial⟩
      · rintro name p source place rfl v t hv ht - name' v' earlier hsuffix
        rcases List.suffix_cons_iff.mp hsuffix with heq | hsuffix
        · obtain ⟨hbind, hlog⟩ := List.cons.inj heq
          cases hbind
          exact ⟨t, .intro hreach hv, hlog.symm⟩
        · exact ht name' v' earlier hsuffix
    refine hn.mono (fun _ _ _ ht => ht.1) ?_
    rintro _ t - ⟨_, -, ht⟩
    exact ht

/-- A completed assignment binds its name in the state that its right side has left. -/
theorem eval_of_completes {name : String} {source : Node} {p place : Place} {v : Value}
    (h : eval host rounds source s = (.ok v, t)) :
    eval host rounds (.tree .assignment [.token .identifier name p, source] place) s =
      (.ok .null, t.assign name v) := by
  rw [eval, expectName, pure_bind, Run.located, Run.bind_ok h]
  rfl

/-- The binding of a completed assignment is in the log at the end of the run. -/
theorem bind_of_completes (hends : (eval host rounds n).Ends s) {name : String} {v : Value}
    (h : Completes host rounds n s name v t) :
    .bind name v :: t.log <:+ (eval host rounds n s).2.log := by
  obtain ⟨hreach, hv⟩ := h
  have hlog := log_of_reaches hreach hends
  rw [eval_of_completes hv] at hlog
  exact hlog

theorem assigns_of_completes {name : String} {v : Value} (h : Completes host rounds n s name v t) :
    n.Assigns name := by
  obtain ⟨hreach, -⟩ := h
  exact ⟨_, _, _, inside_of_reaches hreach⟩

/-- A tree without an assignment inside leaves the environment as it is. -/
theorem keeps_env (h : ∀ name, ¬ n.Assigns name) :
    Keeps host rounds (fun s => s.env = env) (fun _ => True) n := by
  induction n using operands_induction with
  | h n ih =>
    intro s hs
    have hchild : ∀ m ∈ operands n, ∀ name, ¬ m.Assigns name := by
      rintro m hm name ⟨p, source, place, hin⟩
      exact h name ⟨p, source, place, inside_of_mem_kids (mem_kids_of_operands hm) hin⟩
    have kept : Kept host (fun s => s.env = env) fun _ => True := kept_of_events fun _ _ _ hs => hs
    have hn : (eval host rounds n).Lands s (fun _ t => t.env = env ∧ True)
        fun f t => ∃ g : Failure, f = g.leaving n.place ∧ t.env = env := by
      refine lands_of_enters kept hs (fun m t he ht => ?_) ?_ fun _ _ _ ht => ht
      · have hm := mem_operands_of_enters host rounds he
        exact ih m hm (hchild m hm) t ht
      · rintro name p source place rfl
        exact absurd ⟨p, source, place, .self⟩ (h name)
    refine hn.mono (fun _ _ _ ht => ht) ?_
    rintro _ t - ⟨_, -, ht⟩
    exact ht

end

/-! ## Assignments in a program -/

namespace Node

def Everywhere (P : Node → Prop) (n : Node) : Prop := ∀ m : Node, m.Inside n → P m

def Plain (n : Node) : Prop := n.label? ≠ some .assignment

/-- The node itself, if it is an assignment, is the statement that assigns an expression. -/
def Regular (n : Node) : Prop :=
  n.label? = some .assignment → ∃ target value s, n = (Statement.assign target value s).toNode

variable {P Q : Node → Prop}

theorem Everywhere.mono {n : Node} (h : n.Everywhere P) (hPQ : ∀ m, P m → Q m) : n.Everywhere Q :=
  fun m hm => hPQ m (h m hm)

theorem everywhere_tree {l : Label} {kids : List Node} {p : Place} (hself : P (.tree l kids p))
    (hkids : ∀ k ∈ kids, k.Everywhere P) : (Node.tree l kids p).Everywhere P := by
  intro m hm
  cases hm with
  | self => exact hself
  | kid hk hm => exact hkids _ hk m hm

theorem everywhere_word {w : Source.Word} {kind : TokenKind} (h : P (w.toNode kind)) :
    (w.toNode kind).Everywhere P := by
  intro m hm
  cases hm
  exact h

theorem regular_of_plain (n : Node) (h : n.Plain) : n.Regular := fun hassign => absurd hassign h

end Node

open Node

mutual

/-- No expression has an assignment inside. -/
theorem plain_expr : ∀ e : Expr, e.toNode.Everywhere Plain
  | .literal kind w => by
    rw [Expr.toNode]
    exact everywhere_tree nofun (List.forall_mem_singleton.mpr (everywhere_word nofun))
  | .name w => by
    rw [Expr.toNode]
    exact everywhere_tree nofun (List.forall_mem_singleton.mpr (everywhere_word nofun))
  | .call callee args s => by
    rw [Expr.toNode]
    exact everywhere_tree nofun
      (List.forall_mem_cons.mpr ⟨everywhere_word nofun, plain_exprs args⟩)
  | .negate operand s => by
    rw [Expr.toNode]
    exact everywhere_tree nofun (List.forall_mem_singleton.mpr (plain_expr operand))
  | .binary level lhs operator rhs s => by
    have hlevel : level.label ≠ .assignment := by cases level <;> exact nofun
    have hkids : ∀ k ∈ [lhs.toNode, operator.toNode level.tokenKind, rhs.toNode],
        k.Everywhere Plain :=
      List.forall_mem_cons.mpr ⟨plain_expr lhs, List.forall_mem_cons.mpr
        ⟨everywhere_word nofun, List.forall_mem_singleton.mpr (plain_expr rhs)⟩⟩
    rw [Expr.toNode]
    exact everywhere_tree (fun h => hlevel (Option.some.inj h)) hkids

theorem plain_exprs : ∀ es : List Expr, ∀ k ∈ Expr.toNodes es, k.Everywhere Plain
  | [] => by
    rw [Expr.toNodes]
    exact List.forall_mem_nil _
  | e :: es => by
    rw [Expr.toNodes]
    exact List.forall_mem_cons.mpr ⟨plain_expr e, plain_exprs es⟩

end

theorem regular_expr (e : Expr) : e.toNode.Everywhere Regular :=
  (plain_expr e).mono regular_of_plain

mutual

theorem regular_statement : ∀ s : Statement, s.toNode.Everywhere Regular
  | .assign target value s => by
    have hself : (Statement.assign target value s).toNode.Regular :=
      fun _ => ⟨target, value, s, rfl⟩
    rw [Statement.toNode] at hself ⊢
    exact everywhere_tree hself (List.forall_mem_cons.mpr
      ⟨everywhere_word nofun, List.forall_mem_singleton.mpr (regular_expr value)⟩)
  | .call callee args s => by
    have hargs : ∀ k ∈ Expr.toNodes args, k.Everywhere Regular :=
      fun k hk => (plain_exprs args k hk).mono regular_of_plain
    rw [Statement.toNode]
    exact everywhere_tree nofun (List.forall_mem_cons.mpr ⟨everywhere_word nofun, hargs⟩)
  | .conditional c => by
    rw [Statement.toNode]
    exact regular_conditional c

theorem regular_conditional : ∀ c : Conditional, c.toNode.Everywhere Regular
  | .mk guard body otherwise s => by
    have hlabel : guard.keyword.label ≠ .assignment := by cases guard.keyword <;> exact nofun
    have hword : (Node.token guard.keyword.tokenKind guard.keyword.text
        (.span guard.span)).Everywhere Regular :=
      @everywhere_word _ ⟨guard.keyword.text, guard.span⟩ _ nofun
    rw [Conditional.toNode]
    exact everywhere_tree (fun h => absurd (Option.some.inj h) hlabel)
      (List.forall_mem_cons.mpr ⟨hword, List.forall_mem_cons.mpr ⟨regular_expr guard.condition,
        List.forall_mem_cons.mpr ⟨regular_block body, regular_otherwise otherwise⟩⟩⟩)

theorem regular_otherwise : ∀ o : Otherwise, ∀ k ∈ o.toNodes, k.Everywhere Regular
  | .absent => by
    rw [Otherwise.toNodes]
    exact List.forall_mem_nil _
  | .block b => by
    rw [Otherwise.toNodes]
    exact List.forall_mem_singleton.mpr
      (everywhere_tree nofun (List.forall_mem_singleton.mpr (regular_block b)))
  | .chain c => by
    rw [Otherwise.toNodes]
    exact List.forall_mem_singleton.mpr
      (everywhere_tree nofun (List.forall_mem_singleton.mpr (regular_conditional c)))

theorem regular_block : ∀ b : Block, b.toNode.Everywhere Regular
  | .mk statements s => by
    rw [Block.toNode]
    exact everywhere_tree nofun (regular_statements statements)

theorem regular_statements : ∀ ss : List Statement, ∀ k ∈ Statement.toNodes ss,
    k.Everywhere Regular
  | [] => by
    rw [Statement.toNodes]
    exact List.forall_mem_nil _
  | s :: ss => by
    rw [Statement.toNodes]
    exact List.forall_mem_cons.mpr ⟨regular_statement s, regular_statements ss⟩

end

/-- Whatever a program assigns is an expression. -/
theorem expr_of_assignment {program : Program} {name : String} {source : Node} {p place : Place}
    (h : (Node.tree .assignment [.token .identifier name p, source] place).Inside program.toNode) :
    ∃ e : Expr, source = e.toNode := by
  have hprogram : program.toNode.Everywhere Regular :=
    everywhere_tree nofun (regular_statements program.statements)
  obtain ⟨target, value, s, heq⟩ := hprogram _ h rfl
  rw [Statement.toNode] at heq
  exact ⟨value, (List.cons.inj (List.cons.inj (Node.tree.inj heq).2.1).2).1⟩

/-- An expression leaves the environment as it is. -/
theorem keeps_env_expr {host : Host} {rounds : Nat} (e : Expr) (env : Environment) :
    Keeps host rounds (fun s => s.env = env) (fun _ => True) e.toNode :=
  keeps_env fun _ ⟨_, _, _, hin⟩ => plain_expr e _ hin rfl

/-! ## Outcomes -/

/-- What an outcome of a program says of its environment. -/
structure Outcome.Accounted (setting : Setting) (env : Environment) (program : Program)
    (o : Outcome Unit) : Prop where
  /-- The environment is the first one, overwritten by the bindings of the log in order. -/
  overwritten : o.env = env.overwrite (Event.bindings o.log)
  /-- These are the bindings of the assignments whose right side came to a value, each made when the
  log had come as far as that value. -/
  completed : ∀ name v earlier, .bind name v :: earlier <:+ o.log ↔
    ∃ t, Completes setting.host setting.rounds program.toNode ⟨env, []⟩ name v t ∧ t.log = earlier
  /-- No name disappears. -/
  present : ∀ name, env.contains name = true → o.env.contains name = true
  /-- A name that the program does not assign keeps its value. -/
  untouched : ∀ name, ¬ program.toNode.Assigns name → o.env.get? name = env.get? name
  /-- A step that fails is the last: it ends the program, in the state that the step failed in. -/
  stopped : ∀ m t f u, Reaches setting.host setting.rounds program.toNode ⟨env, []⟩ m t →
    eval setting.host setting.rounds m t = (.error (.failure f), u) →
      (∃ g, o.result = .error (.failure g) ∧ g.fault = f.fault) ∧ o.env = u.env ∧ o.log = u.log
  /-- An assignment whose right side fails leaves the environment that it found. -/
  unassigned : ∀ name p source place t f u,
    Reaches setting.host setting.rounds program.toNode ⟨env, []⟩
      (.tree .assignment [.token .identifier name p, source] place) t →
    eval setting.host setting.rounds source t = (.error (.failure f), u) → o.env = t.env

/-- A run of a source that is within its rounds is one of its tree that has an end. -/
theorem ends_of_runBy {setting : Setting} {read : Reader} {env : Environment} {source : String}
    {n : Node} (hread : read source = .ok n)
    (hends : (setting.runBy read env source).result ≠ .error .outOfRounds) :
    (eval setting.host setting.rounds n).Ends ⟨env, []⟩ := by
  rw [Setting.runBy_of_read hread] at hends
  intro t ht
  rw [ht] at hends
  exact hends rfl

/-- A run within its rounds leaves the environment it found, overwritten by the bindings of its
log. -/
theorem env_of_runBy {setting : Setting} {read : Reader} {env : Environment} {source : String}
    (hends : (setting.runBy read env source).result ≠ .error .outOfRounds) :
    (setting.runBy read env source).env =
      env.overwrite (Event.bindings (setting.runBy read env source).log) := by
  cases hread : read source with
  | error p =>
    rw [Setting.runBy_of_unreadable hread]
    rfl
  | ok n =>
    have hrun := ends_of_runBy hread hends
    rw [Setting.runBy_of_read hread]
    exact Run.state_of_lands hrun
      ((keeps_overwrite setting.host setting.rounds env n ⟨env, []⟩ rfl).weaken
        fun _ _ _ ht => ht.1)

/-- Run a program that is read, up to its end or to a failure at any depth. Its environment has
evolved by completed assignments only; and no expression, so no condition either, has changed it. -/
theorem environment_of_run {source : String} {program : Program}
    (hread : Source.read source = .ok program) {setting : Setting} {env : Environment}
    (hends : (setting.runSource env source).result ≠ .error .outOfRounds) :
    (setting.runSource env source).Accounted setting env program ∧
      ∀ (e : Expr) (s : State), (eval setting.host setting.rounds e.toNode).Lands s
        (fun _ t => t.env = s.env) fun _ t => t.env = s.env := by
  have hown := Reader.own_of_read hread
  -- within its rounds, the run of the program's tree has an end
  have hrun : (eval setting.host setting.rounds program.toNode).Ends ⟨env, []⟩ :=
    ends_of_runBy hown hends
  rw [Setting.runSource_of_read hread]
  have hexpr : ∀ (e : Expr) (s : State), (eval setting.host setting.rounds e.toNode).Lands s
      (fun _ t => t.env = s.env) fun _ t => t.env = s.env := by
    intro e s
    exact (keeps_env_expr e s.env s rfl).weaken fun _ _ _ ht => ht.1
  refine ⟨?_, hexpr⟩
  have hstopped : ∀ {m t f u}, Reaches setting.host setting.rounds program.toNode ⟨env, []⟩ m t →
      eval setting.host setting.rounds m t = (.error (.failure f), u) →
        ∃ g, eval setting.host setting.rounds program.toNode ⟨env, []⟩ =
          (.error (.failure g), u) ∧ g.fault = f.fault := by
    intro m t f u hreach hm
    obtain ⟨g, hg, hroot⟩ := fails_of_reaches hreach hrun hm
    exact ⟨g, hroot, hg⟩
  have hoverwritten := Run.state_of_lands hrun
    ((keeps_overwrite setting.host setting.rounds env program.toNode ⟨env, []⟩ rfl).weaken
      fun _ _ _ ht => ht.1)
  have hstart : State.Explained setting.host setting.rounds program.toNode ⟨env, []⟩ ⟨env, []⟩ :=
    fun _ _ _ h => absurd (List.suffix_nil.mp h) (List.cons_ne_nil _ _)
  have hexplained := Run.state_of_lands hrun (lands_explained .here hstart)
  refine ⟨hoverwritten, ?_, ?_, ?_, ?_, ?_⟩
  · intro name v earlier
    constructor
    · exact hexplained name v earlier
    · rintro ⟨t, ht, rfl⟩
      exact bind_of_completes hrun ht
  · intro name hname
    rw [hoverwritten]
    exact Environment.contains_overwrite _ hname
  · intro name hname
    have hfresh : ∀ v, (name, v) ∉ Event.bindings
        (eval setting.host setting.rounds program.toNode ⟨env, []⟩).2.log := by
      intro v hv
      obtain ⟨earlier, hearlier⟩ := Event.suffix_of_mem_bindings hv
      obtain ⟨t, ht, -⟩ := hexplained name v earlier hearlier
      exact hname (assigns_of_completes ht)
    exact (congrArg (Environment.get? · name) hoverwritten).trans
      (Environment.get?_overwrite_of_not_mem hfresh)
  · intro m t f u hreach hm
    obtain ⟨g, hroot, hg⟩ := hstopped hreach hm
    rw [hroot]
    exact ⟨⟨g, rfl, hg⟩, rfl, rfl⟩
  · intro name p source place t f u hreach hsource
    obtain ⟨e, rfl⟩ := expr_of_assignment (inside_of_reaches hreach)
    have henv := (Run.lands_of_failure hsource).mp (hexpr e t)
    obtain ⟨g, hroot, -⟩ := hstopped (hreach.trans (.into .source .here)) hsource
    rw [hroot]
    exact henv

/-- The second of three assignments fails: the first one stays, and neither of the
others is made. -/
theorem environment_of_run_division :
    let source := "x = 1 y = x / 0 z = 2"
    let o := (Setting.mk .standard 1).runSource Registry.standard.environment source
    ∃ program, Source.read source = .ok program ∧ o.result ≠ .error .outOfRounds ∧
      o.Accounted (Setting.mk .standard 1) Registry.standard.environment program ∧
      (o.problem?.map Problem.message, ["x", "y", "z", "Pow"].map o.env.contains) =
        (some "Integer division by zero (line 1, col 11)", [true, false, false, true]) := by
  intro source o
  obtain ⟨program, hread⟩ : ∃ program, Source.read source = .ok program :=
    Source.exists_of_isOk (by decide +kernel)
  have hrun : (o.problem?.map Problem.message, ["x", "y", "z", "Pow"].map o.env.contains) =
      (some "Integer division by zero (line 1, col 11)", [true, false, false, true]) := by
    decide +kernel
  have hends : o.result ≠ .error .outOfRounds := by
    intro h
    have hproblem : o.problem? = some .outOfRounds := by rw [Outcome.problem?, h]
    rw [hproblem] at hrun
    exact absurd (Option.some.inj (Prod.mk.inj hrun).1) (by decide)
  exact ⟨program, hread, hends, (environment_of_run hread hends).1, hrun⟩

end Scriptlet
