import Scriptlet.Proofs.Bindings
import Scriptlet.Proofs.InTurn
import Scriptlet.Proofs.Overflow
/-!
# Names and keywords

A word is a name or a keyword by where it stands. Where a statement begins, the words that begin a
conditional are keywords; where an operand has to follow, those that stand for a value are. Such a
word can thus be bound like a name, but it is never read as one. Main statement: a word that can be
bound is read back unless it stands for a value (`runSource_readBack`).
-/

namespace Scriptlet

namespace Source

/-! ## Words -/

theorem wordTerminal_toList {m : Mode} {w : String} :
    wordTerminal m w.toList = .identifier ↔ w ∉ m.keywords.map Prod.fst := by
  rw [wordTerminal_eq_identifier, String.ofList_toList]

/-- A word that stands for an operand is a name or stands for a value. -/
theorem wordTerminal_operand (word : List Char) :
    wordTerminal .operand word ∈ [.identifier, .trueWord, .falseWord, .nullWord] := by
  have hall : ∀ x ∈ Mode.operand.keywords,
      x.2 ∈ [Terminal.identifier, .trueWord, .falseWord, .nullWord] := by decide
  rcases wordTerminal_cases .operand word with h | ⟨x, hx, -, h⟩
  · rw [h]
    exact List.mem_cons_self
  · rw [h]
    exact hall x hx

/-! ## Sources -/

def oneTo (w : String) : String := w ++ " = 1"

/-- The source that binds a word to one, and then reads it. -/
def readBack (w : String) : String := w ++ " = 1\ncopy = " ++ w ++ " + 1"

def readBackPieces (w : String) : List Piece :=
  bindingPieces w.toList ['1'] ++ [⟨['\n'], .identifier, "copy".toList⟩, ⟨[' '], .assign, ['=']⟩,
    ⟨[' '], wordTerminal .operand w.toList, w.toList⟩, ⟨[' '], .addOp, ['+']⟩,
    ⟨[' '], .integer, ['1']⟩]

variable {w : String}

theorem toList_oneTo (w : String) :
    (oneTo w).toList = written (bindingPieces w.toList ['1']) := by
  simp [oneTo, bindingPieces, written]

theorem toList_readBack (w : String) :
    (readBack w).toList = written (readBackPieces w) ++ [] := by
  simp [readBack, readBackPieces, bindingPieces, written]

theorem isDigits_one : IsDigits ['1'] := ⟨by decide, List.forall_mem_singleton.mpr rfl⟩

theorem fits_readBack (hw : Terminal.identifier.Spells w.toList) :
    ∀ x ∈ readBackPieces w, x.Fits := by
  have hadd : Terminal.addOp.Spells ['+'] := @spells_of_mem_texts .addOp "+" (by decide)
  have hcopy : Terminal.identifier.Spells "copy".toList :=
    ⟨'c', ['o', 'p', 'y'], rfl, rfl, List.all_eq_true.mp rfl⟩
  refine List.forall_mem_append.mpr ⟨fits_binding hw isDigits_one, ?_⟩
  simp only [List.forall_mem_cons]
  exact ⟨⟨.blank (by decide) .nil, hcopy⟩, ⟨gap_space, spells_assign⟩,
    ⟨gap_space, spells_wordTerminal .operand hw⟩, ⟨gap_space, hadd⟩, ⟨gap_space, isDigits_one⟩,
    List.forall_mem_nil _⟩

theorem scans_readBack (hw : Terminal.identifier.Spells w.toList)
    (hname : wordTerminal .line w.toList = .identifier) :
    Scans .line (readBackPieces w) [] := by
  have hmeets : Mode.line.Meets ((readBackPieces w).map Piece.terminal) := by
    have hk := wordTerminal_operand w.toList
    simp only [readBackPieces, bindingPieces, List.cons_append, List.nil_append, List.map_cons,
      List.map_nil]
    generalize wordTerminal .operand w.toList = k at hk ⊢
    simp only [List.mem_cons, List.not_mem_nil, or_false] at hk
    obtain rfl | rfl | rfl | rfl := hk <;> exact ⟨rfl, rfl, rfl, rfl, rfl, rfl, rfl, rfl, trivial⟩
  have hnames : Named .line (readBackPieces w) :=
    ⟨fun _ => hname, .other (by decide) <| .other (by decide) ⟨fun _ => rfl, .other (by decide)
      ⟨id, .other (by decide) <| .other (by decide) trivial⟩⟩⟩
  have hapart : Apart (readBackPieces w) := by
    simp [Apart, readBackPieces, bindingPieces, Terminal.isWord]
  exact scans_of_named hmeets (fits_readBack hw) hnames hapart (.gap .nil)

/-- A word can be bound unless it begins a conditional. -/
theorem isOk_read_oneTo (hw : Terminal.identifier.Spells w.toList) :
    (read (oneTo w)).isOk = true ↔ w ∉ Mode.line.keywords.map Prod.fst := by
  constructor
  · intro hok hkeyword
    have hrefused : ∀ w ∈ Mode.line.keywords.map Prod.fst, (read (oneTo w)).isOk = false := by
      decide +kernel
    rw [hrefused w hkeyword] at hok
    cases hok
  · intro hfree
    obtain ⟨a, b, hread⟩ :=
      read_binding hw (wordTerminal_toList.mpr hfree) isDigits_one (toList_oneTo w)
    rw [hread]
    rfl

/-- What a word says where an operand has to follow, by what it is there. -/
def operandOf (k : Terminal) (w : Word) : Expr :=
  match Progress.literal? k with
  | some kind => .literal kind w
  | none => .name w

theorem readAll_readBack {k : Terminal}
    (hk : k ∈ [.identifier, .trueWord, .falseWord, .nullWord]) (w : List Char)
    (a x b c y d e f : Span) :
    ∃ p, Progress.start.readAll [⟨.identifier, w, a⟩, ⟨.assign, ['='], x⟩, ⟨.integer, ['1'], b⟩,
          ⟨.identifier, "copy".toList, c⟩, ⟨.assign, ['='], y⟩, ⟨k, w, d⟩, ⟨.addOp, ['+'], e⟩,
          ⟨.integer, ['1'], f⟩] = .ok p ∧
      p.finish = some
        ⟨[.assign ⟨String.ofList w, a⟩ (.literal .integer ⟨"1", b⟩) (a.to b),
          .assign ⟨"copy", c⟩ (.binary .sum (operandOf k ⟨String.ofList w, d⟩) ⟨"+", e⟩
            (.literal .integer ⟨"1", f⟩) (d.to f)) (c.to f)], some (a.to f)⟩ := by
  simp only [List.mem_cons, List.not_mem_nil, or_false] at hk
  obtain rfl | rfl | rfl | rfl := hk <;> exact ⟨_, rfl, rfl⟩

/-- What a source says that binds a word to one and reads it back. -/
theorem exists_read_readBack (hw : Terminal.identifier.Spells w.toList)
    (hname : wordTerminal .line w.toList = .identifier) :
    ∃ a b c d e f : Span, d.first = Position.start.advance (w ++ " = 1\ncopy = ").toList ∧
      read (readBack w) = .ok
        ⟨[.assign ⟨w, a⟩ (.literal .integer ⟨"1", b⟩) (a.to b),
          .assign ⟨"copy", c⟩ (.binary .sum (operandOf (wordTerminal .operand w.toList) ⟨w, d⟩)
            ⟨"+", e⟩ (.literal .integer ⟨"1", f⟩) (d.to f)) (c.to f)], some (a.to f)⟩ := by
  obtain ⟨a, x, b, c, y, d, e, f, htokens, hd⟩ : ∃ a x b c y d e f : Span,
      placed .start (readBackPieces w) = [⟨.identifier, w.toList, a⟩, ⟨.assign, ['='], x⟩,
        ⟨.integer, ['1'], b⟩, ⟨.identifier, "copy".toList, c⟩, ⟨.assign, ['='], y⟩,
        ⟨wordTerminal .operand w.toList, w.toList, d⟩, ⟨.addOp, ['+'], e⟩, ⟨.integer, ['1'], f⟩] ∧
      d.first = Position.start.advance (w ++ " = 1\ncopy = ").toList := by
    refine ⟨_, _, _, _, _, _, _, _, rfl, ?_⟩
    rw [String.toList_append, Position.advance_append]
    rfl
  obtain ⟨p, hp, hfinish⟩ :=
    readAll_readBack (wordTerminal_operand w.toList) w.toList a x b c y d e f
  rw [← htokens] at hp
  rw [String.ofList_toList] at hfinish
  exact ⟨a, b, c, d, e, f, hd,
    read_of_scans (toList_readBack w) (scans_readBack hw hname) hp hfinish⟩

end Source

/-! ## Runs -/

open Source

section

variable {host : Host} {rounds : Nat} {s t : State} {m n : Node} {place : Place}

/-- The words that stand for a value where an operand has to follow, each with its value. -/
def literalWords : List (String × Value) :=
  [("true", .bool true), ("false", .bool false), ("null", .null)]

theorem eval_constant {kind : LiteralKind} {word : Word} {v : Value}
    (h : literalValue kind.tokenKind word.text = .ok v) :
    eval host rounds (Expr.literal kind word).toNode s = (.ok v, s) := by
  change eval host rounds (.tree .constant [.token kind.tokenKind word.text _] _) s = _
  rw [eval, h]
  rfl

theorem eval_literalWord {w : String} {v : Value} (h : (w, v) ∈ literalWords) (d : Span) :
    eval host rounds (operandOf (wordTerminal .operand w.toList) ⟨w, d⟩).toNode s = (.ok v, s) := by
  simp only [literalWords, List.mem_cons, Prod.mk.injEq, List.not_mem_nil, or_false] at h
  obtain ⟨rfl, rfl⟩ | ⟨rfl, rfl⟩ | ⟨rfl, rfl⟩ := h <;> exact eval_constant rfl

theorem denotes_one (env : Environment) (b : Span) :
    (Expr.literal .integer ⟨"1", b⟩).toNode.Denotes env 1 :=
  @Node.Denotes.literal env ['1'] _ _ isDigits_one (by decide)

theorem short_of_one (h : n.numerals = ["1"]) : n.overlong? = none := by
  rw [Node.overlong?, h]
  decide

theorem eval_one (b : Span) :
    eval host rounds (Expr.literal .integer ⟨"1", b⟩).toNode s = (.ok (.int 1), s) :=
  eval_of_short (denotes_one s.env b) (short_of_one rfl)

theorem eval_sum_name {w : String} (h : s.env.get? w = some (.int 1)) (d e f span : Span) :
    eval host rounds (Expr.binary .sum (.name ⟨w, d⟩) ⟨"+", e⟩ (.literal .integer ⟨"1", f⟩)
      span).toNode s = (.ok (.int 2), s) := by
  let sum := Expr.binary .sum (.name ⟨w, d⟩) ⟨"+", e⟩ (.literal .integer ⟨"1", f⟩) span
  have hdenotes : sum.toNode.Denotes s.env 2 := .sum (.name h (by decide)) (denotes_one s.env f)
  exact eval_of_short hdenotes (short_of_one rfl)

/-- A word that stands for a value cannot be added to a number, whatever it is bound to. -/
theorem eval_sum_literalWord {w : String} {v : Value} (h : (w, v) ∈ literalWords)
    (d e f span : Span) :
    eval host rounds (Expr.binary .sum (operandOf (wordTerminal .operand w.toList) ⟨w, d⟩) ⟨"+", e⟩
        (.literal .integer ⟨"1", f⟩) span).toNode s =
      (.error (.failure ⟨.operands "+" v.kind .int, (Place.span span).location⟩), s) := by
  have happly : applyOperator .sum "+" v (.int 1) = .error (.operands "+" v.kind .int) := by
    simp only [literalWords, List.mem_cons, Prod.mk.injEq, List.not_mem_nil, or_false] at h
    obtain ⟨-, rfl⟩ | ⟨-, rfl⟩ | ⟨-, rfl⟩ := h <;> rfl
  have hsum : eval host rounds (Expr.binary .sum (operandOf (wordTerminal .operand w.toList) ⟨w, d⟩)
      ⟨"+", e⟩ (.literal .integer ⟨"1", f⟩) span).toNode = _ :=
    eval_binary host rounds .sum _ _ "+" (.span e) (.span span)
  rw [hsum, Run.located, Run.bind_ok (eval_literalWord h d), Run.bind_ok (eval_one f), happly]
  rfl

/-- An assignment fails as its right side does, if the failure has its location. -/
theorem eval_assignment_error {name : String} {f : Failure} {place' : Place} (hf : f.Settled)
    (h : eval host rounds n s = (.error (.failure f), t)) :
    eval host rounds (.tree .assignment [.token .identifier name place', n] place) s =
      (.error (.failure f), t) := by
  rw [eval, expectName, pure_bind, Run.located, Run.bind_error h]
  simp only [leaving_of_settled hf]

end

/-- A source of two statements comes to what the second one does, if the first comes to its end. -/
theorem runSource_pair {setting : Setting} {env : Environment} {source : String}
    {first second : Statement} {extent : Option Span} {v : Value} {t u : State}
    {r : Except Stop Value} (hread : Source.read source = .ok ⟨[first, second], extent⟩)
    (hfirst : eval setting.host setting.rounds first.toNode ⟨env, []⟩ = (.ok v, t))
    (hsecond : eval setting.host setting.rounds second.toNode t = (r, u)) :
    setting.runSource env source = ⟨(r.mapError .ofStop).map fun _ => (), u.env, u.log⟩ := by
  have hall : evalAll setting.host setting.rounds (Statement.toNodes [first, second]) ⟨env, []⟩ =
      (r.map fun _ => (), u) := by
    rw [Statement.toNodes, Statement.toNodes, Statement.toNodes, evalAll, Run.bind_ok hfirst,
      evalAll, evalAll]
    cases r with
    | ok => rw [Run.bind_ok hsecond]; rfl
    | error => rw [Run.bind_error hsecond]; rfl
  rw [runSource_eq hread, Setting.perform_eq, Program.toNode, Node.kids, hall]
  cases r <;> rfl

section

variable {w : String} (hw : Terminal.identifier.Spells w.toList)
  (hname : wordTerminal .line w.toList = .identifier) (setting : Setting) (env : Environment)

include hw hname

/-- A word that is a name in both places is read back. -/
theorem runSource_readBack_name (hfree : wordTerminal .operand w.toList = .identifier) :
    let o := setting.runSource env (readBack w)
    o.result = .ok () ∧ o.env = (env.define w (.int 1)).define "copy" (.int 2) := by
  obtain ⟨a, b, c, d, e, f, -, hread⟩ := exists_read_readBack hw hname
  rw [hfree] at hread
  let bound := (State.mk env []).assign w (.int 1)
  have hbound : bound.env.get? w = some (.int 1) := Environment.get?_define_self env w _
  have hsum := @eval_sum_name setting.host setting.rounds bound w hbound d e f (d.to f)
  rw [runSource_pair hread (eval_of_completes (eval_one b)) (eval_of_completes hsum)]
  exact ⟨rfl, rfl⟩

/-- A word that stands for a value is read as that value. -/
theorem runSource_readBack_value {v : Value} (hv : (w, v) ∈ literalWords) :
    let o := setting.runSource env (readBack w)
    o.result = .error (.failure ⟨.operands "+" v.kind .int, some ⟨2, some 8⟩⟩) ∧
      o.env = env.define w (.int 1) := by
  obtain ⟨a, b, c, d, e, f, hd, hread⟩ := exists_read_readBack hw hname
  let bound := (State.mk env []).assign w (.int 1)
  have hplace : (Place.span (d.to f)).location = some ⟨2, some 8⟩ := by
    rw [Place.location, Span.to, hd]
    simp only [literalWords, List.mem_cons, Prod.mk.injEq, List.not_mem_nil, or_false] at hv
    obtain ⟨rfl, -⟩ | ⟨rfl, -⟩ | ⟨rfl, -⟩ := hv <;> decide
  have hsum := @eval_sum_literalWord setting.host setting.rounds bound w v hv d e f (d.to f)
  rw [hplace] at hsum
  rw [runSource_pair hread (eval_of_completes (eval_one b))
    (eval_assignment_error (fun _ => rfl) hsum)]
  exact ⟨rfl, rfl⟩

end

/-- A word can be bound like a name unless it begins a conditional. Then it is read back as what it
is bound to, unless it stands for a value: where an operand has to follow such a word is that value,
whatever it is bound to, and the sum fails. -/
theorem runSource_readBack {w : String} (hw : Terminal.identifier.Spells w.toList)
    (setting : Setting) (env : Environment) :
    ((Source.read (oneTo w)).isOk = true ↔ w ∉ ["if", "unless", "while", "until"]) ∧
      ((Source.read (oneTo w)).isOk = true →
        let o := setting.runSource env (readBack w)
        let bound := env.define w (.int 1)
        (w ∉ ["true", "false", "null"] →
            o.result = .ok () ∧ o.env = bound.define "copy" (.int 2)) ∧
          ∀ v, (w, v) ∈ literalWords →
            o.result = .error (.failure ⟨.operands "+" v.kind .int, some ⟨2, some 8⟩⟩) ∧
              o.env = bound) := by
  have hok := isOk_read_oneTo hw
  refine ⟨hok, fun h => ?_⟩
  have hname := wordTerminal_toList.mpr (hok.mp h)
  exact ⟨fun hfree => runSource_readBack_name hw hname setting env
      (wordTerminal_toList.mpr hfree),
    fun v hv => runSource_readBack_value hw hname setting env hv⟩

/-- A keyword that neither begins a conditional nor stands for a value. -/
theorem runSource_readBack_else :
    let env := Registry.standard.environment
    let o := (Setting.ofHost .standard).runSource env (readBack "else")
    Terminal.identifier.Spells "else".toList ∧ (Source.read (oneTo "else")).isOk = true ∧
      o.result = .ok () ∧ o.env.get? "copy" = some (.int 2) := by
  intro env o
  have hw : Terminal.identifier.Spells "else".toList :=
    ⟨'e', ['l', 's', 'e'], rfl, rfl, List.all_eq_true.mp rfl⟩
  obtain ⟨hok, hrun⟩ := runSource_readBack hw (.ofHost .standard) env
  have hread := hok.mpr (by decide)
  obtain ⟨hresult, henv⟩ := (hrun hread).1 (by decide)
  exact ⟨hw, hread, hresult, henv ▸ Environment.get?_define_self _ _ _⟩

/-- A word that is bound to one, and is read as what it stands for. -/
theorem runSource_readBack_true :
    let o := (Setting.ofHost .standard).runSource Registry.standard.environment (readBack "true")
    Terminal.identifier.Spells "true".toList ∧ (Source.read (oneTo "true")).isOk = true ∧
      o.problem?.map Problem.message =
        some "Cannot add values of types Bool and Int (operator '+') (line 2, col 8)" ∧
      o.env.get? "true" = some (.int 1) ∧ o.env.get? "copy" = none := by
  intro o
  have hw : Terminal.identifier.Spells "true".toList :=
    ⟨'t', ['r', 'u', 'e'], rfl, rfl, List.all_eq_true.mp rfl⟩
  have hv : ("true", Value.bool true) ∈ literalWords := List.mem_cons_self
  obtain ⟨hresult, henv⟩ := runSource_readBack_value hw (by decide) (.ofHost .standard)
    Registry.standard.environment hv
  refine ⟨hw, (isOk_read_oneTo hw).mpr (by decide), ?_, ?_, ?_⟩
  · change o.result = _ at hresult
    rw [Outcome.problem?, hresult]
    decide +kernel
  · change o.env = _ at henv
    rw [henv, Environment.get?_define_self]
  · change o.env = _ at henv
    rw [henv, Environment.get?_define_of_ne _ _ (by decide)]
    decide +kernel

end Scriptlet
