import Scriptlet.Proofs.Naming
/-!
# What literals denote

A source that binds `x` to a literal. A whole number in decimal, behind any number of noughts and
perhaps a sign, is bound if it and its opposite are words, and is out of range otherwise: the digits
are judged before the sign is applied. A text between two quotes is bound as it is, whatever is in
it but that quote. Main statements: `runSource_numeral` and `runSource_quotedText`, and both in one
(`literals_denote`).
-/

namespace Scriptlet

open Source

namespace Source

/-- A whole number in decimal, behind some noughts and perhaps a sign. -/
def numeral (negative : Bool) (noughts n : Nat) : String :=
  (if negative then "-" else "") ++ (String.ofList (List.replicate noughts '0') ++ toString n)

def quotedText (mark : Char) (s : String) : String :=
  String.ofList (mark :: (s.toList ++ [mark]))

/-- A source binds `x` to what an expression says, and does no more. -/
def Binds (source : String) (value : Expr) : Prop :=
  ∃ a span extent : Span, read source = .ok ⟨[.assign ⟨"x", a⟩ value span], some extent⟩

def boundTo (value : List Piece) : List Piece :=
  ⟨[], .identifier, ['x']⟩ :: ⟨[' '], .assign, ['=']⟩ :: value

/-! ## Texts -/

/-- The digits of a whole number, behind some noughts. -/
def decimalDigits (noughts n : Nat) : List Char := List.replicate noughts '0' ++ Nat.toDigits 10 n

theorem numeral_eq (negative : Bool) (noughts n : Nat) :
    numeral negative noughts n =
      (if negative then "-" else "") ++ String.ofList (decimalDigits noughts n) := by
  rw [numeral, decimalDigits, String.ofList_append, Nat.toString_eq_ofList_toDigits]

theorem isDigits_decimalDigits (noughts n : Nat) : IsDigits (decimalDigits noughts n) := by
  refine ⟨List.append_ne_nil_of_right_ne_nil _ Nat.toDigits_ne_nil, fun c hc => ?_⟩
  rcases List.mem_append.mp hc with hc | hc
  · rw [List.eq_of_mem_replicate hc]
    decide
  · exact Nat.isDigit_of_mem_toDigits (by decide) (by decide) hc

theorem natOfDigits_decimalDigits (noughts n : Nat) :
    Decimal.natOfDigits (decimalDigits noughts n) = n := by
  rw [decimalDigits, natOfDigits_noughts]
  exact Nat.ofDigitChars_ten_toDigits

theorem length_decimalDigits (noughts n : Nat) :
    (decimalDigits noughts n).length = noughts + (toString n).length := by
  rw [decimalDigits, List.length_append, List.length_replicate, Nat.toString_eq_ofList_toDigits,
    String.length_ofList]

theorem unquote_quotedText {mark : Char} (hmark : mark = '\x22' ∨ mark = '\x27') (s : String) :
    unquote (quotedText mark s) = s := by
  rw [unquote, quotedText, String.toList_ofList]
  simp only
  rw [if_pos ⟨hmark, List.getLast?_concat⟩, List.dropLast_concat, String.ofList_toList]

/-! ## Sources -/

theorem scans_boundTo {value : List Piece} (hmeets : Mode.operand.Meets (value.map Piece.terminal))
    (hfits : ∀ x ∈ value, x.Fits) (hnames : Named .operand value) (hapart : Apart (boundTo value)) :
    Scans .line (boundTo value) [] := by
  have hx : Terminal.identifier.Spells ['x'] := ⟨'x', [], rfl, rfl, List.forall_mem_nil _⟩
  exact scans_of_named ⟨rfl, rfl, hmeets⟩
    (List.forall_mem_cons.mpr
      ⟨⟨.nil, hx⟩, List.forall_mem_cons.mpr ⟨⟨gap_space, spells_assign⟩, hfits⟩⟩)
    ⟨fun _ => by decide, .other (by decide) hnames⟩ hapart (.gap .nil)

theorem binds_integer {digits : List Char} (h : IsDigits digits) :
    ∃ b : Span, b.first = ⟨4, 1, 5⟩ ∧
      Binds ("x = " ++ String.ofList digits) (.literal .integer ⟨String.ofList digits, b⟩) := by
  let value : List Piece := [⟨[' '], .integer, digits⟩]
  have hscans : Scans .line (boundTo value) [] :=
    scans_boundTo ⟨rfl, trivial⟩ (List.forall_mem_singleton.mpr ⟨gap_space, h⟩)
      (.other (by decide) trivial) (by simp [Apart, boundTo, value, Terminal.isWord])
  have hsource : ("x = " ++ String.ofList digits).toList = written (boundTo value) ++ [] := by
    simp [boundTo, value, written]
  exact ⟨_, rfl, _, _, _, read_of_scans hsource hscans rfl rfl⟩

theorem binds_negated {digits : List Char} (h : IsDigits digits) :
    ∃ b span : Span, b.first = ⟨5, 1, 6⟩ ∧
      Binds ("x = " ++ ("-" ++ String.ofList digits))
        (.negate (.literal .integer ⟨String.ofList digits, b⟩) span) := by
  let value : List Piece := [⟨[' '], .negation, ['-']⟩, ⟨[], .integer, digits⟩]
  have hsign : Terminal.negation.Spells ['-'] :=
    @spells_of_mem_texts .negation "-" (List.mem_singleton_self _)
  have hscans : Scans .line (boundTo value) [] :=
    scans_boundTo ⟨rfl, rfl, trivial⟩
      (List.forall_mem_cons.mpr ⟨⟨gap_space, hsign⟩, List.forall_mem_singleton.mpr ⟨.nil, h⟩⟩)
      (.other (by decide) (.other (by decide) trivial))
      (by simp [Apart, boundTo, value, Terminal.isWord])
  have hsource : ("x = " ++ ("-" ++ String.ofList digits)).toList =
      written (boundTo value) ++ [] := by
    simp [boundTo, value, written]
  exact ⟨_, _, rfl, _, _, _, read_of_scans hsource hscans rfl rfl⟩

theorem binds_string {mark : Char} (hmark : mark = '\x22' ∨ mark = '\x27') {s : String}
    (hs : mark ∉ s.toList) :
    ∃ b : Span, Binds ("x = " ++ quotedText mark s) (.literal .string ⟨quotedText mark s, b⟩) := by
  let value : List Piece := [⟨[' '], .string, mark :: (s.toList ++ [mark])⟩]
  have hspells : Terminal.string.Spells (mark :: (s.toList ++ [mark])) :=
    ⟨mark, s.toList, hmark, hs, rfl⟩
  have hscans : Scans .line (boundTo value) [] :=
    scans_boundTo ⟨rfl, trivial⟩ (List.forall_mem_singleton.mpr ⟨gap_space, hspells⟩)
      (.other (by decide) trivial) (by simp [Apart, boundTo, value, Terminal.isWord])
  have hsource : ("x = " ++ quotedText mark s).toList = written (boundTo value) ++ [] := by
    simp [boundTo, value, written, quotedText]
  exact ⟨_, _, _, _, read_of_scans hsource hscans rfl rfl⟩

end Source

/-! ## Runs -/

section

variable {setting : Setting} {env : Environment} {source : String} {value : Expr}

theorem runSource_of_binds {r : Except Stop Value} {t : State} (h : Binds source value)
    (hstatement : ∀ a span : Span, eval setting.host setting.rounds
      (Statement.assign ⟨"x", a⟩ value span).toNode ⟨env, []⟩ = (r, t)) :
    setting.runSource env source = ⟨(r.mapError .ofStop).map fun _ => (), t.env, t.log⟩ := by
  obtain ⟨a, span, extent, hread⟩ := h
  have hall : evalAll setting.host setting.rounds
      (Statement.toNodes [.assign ⟨"x", a⟩ value span]) ⟨env, []⟩ = (r.map fun _ => (), t) := by
    rw [Statement.toNodes, Statement.toNodes, evalAll, evalAll]
    cases r with
    | ok => rw [Run.bind_ok (hstatement a span)]; rfl
    | error => rw [Run.bind_error (hstatement a span)]; rfl
  rw [runSource_eq hread, Setting.perform_eq, Program.toNode, Node.kids, hall]
  cases r <;> rfl

/-- A source that binds `x` to a value. -/
theorem runSource_of_value {v : Value} (h : Binds source value)
    (hv : eval setting.host setting.rounds value.toNode ⟨env, []⟩ = (.ok v, ⟨env, []⟩)) :
    setting.runSource env source = ⟨.ok (), env.define "x" v, [.bind "x" v]⟩ :=
  runSource_of_binds (r := .ok .null) (t := State.assign ⟨env, []⟩ "x" v) h fun _ _ =>
    eval_of_completes hv

/-- A source that does not come to bind `x`. -/
theorem runSource_of_failure {f : Failure} (h : Binds source value) (hf : f.Settled)
    (hv : eval setting.host setting.rounds value.toNode ⟨env, []⟩ =
      (.error (.failure f), ⟨env, []⟩)) :
    setting.runSource env source = ⟨.error (.failure f), env, []⟩ :=
  runSource_of_binds (r := .error (.failure f)) (t := ⟨env, []⟩) h fun _ _ =>
    eval_assignment_error hf hv

theorem eval_constant_error {host : Host} {rounds : Nat} {s : State} {kind : LiteralKind}
    {word : Word} {f : Fault} (h : literalValue kind.tokenKind word.text = .error f)
    (hf : f.isNative = true) :
    eval host rounds (Expr.literal kind word).toNode s =
      (.error (.failure ⟨f, (Place.span word.span).location⟩), s) := by
  change eval host rounds (.tree .constant [.token kind.tokenKind word.text _] _) s = _
  rw [eval, h]
  change (_, s) = (_, s)
  rw [leaving_of_native hf]
  rfl

end

section

variable {noughts n : Nat}

/-- What comes of the digits of a number by themselves. -/
theorem literalValue_decimalDigits
    (hlength : noughts + (toString n).length ≤ Decimal.digitLimit) :
    literalValue .integer (String.ofList (decimalDigits noughts n)) =
      if (n : Int) ≤ intMax then .ok (.int n)
      else .error (.literalOutOfRange (String.ofList (decimalDigits noughts n))) := by
  have hrange : InRange n ↔ (n : Int) ≤ intMax := by
    unfold InRange intMin
    omega
  rw [literalValue_of_digits (isDigits_decimalDigits noughts n), length_decimalDigits,
    if_neg (Nat.not_lt.mpr hlength), natOfDigits_decimalDigits]
  simp only [hrange]

variable {host : Host} {rounds : Nat} {s : State} (b : Span)

theorem eval_decimalDigits (hlength : noughts + (toString n).length ≤ Decimal.digitLimit) :
    eval host rounds (Expr.literal .integer
      ⟨String.ofList (decimalDigits noughts n), b⟩).toNode s =
      if (n : Int) ≤ intMax then (.ok (.int n), s)
      else (.error (.failure ⟨.literalOutOfRange (String.ofList (decimalDigits noughts n)),
        (Place.span b).location⟩), s) := by
  have hliteral := literalValue_decimalDigits hlength
  by_cases hn : (n : Int) ≤ intMax
  · rw [if_pos hn] at hliteral ⊢
    exact eval_constant hliteral
  · rw [if_neg hn] at hliteral ⊢
    exact eval_constant_error hliteral rfl

theorem eval_negated (span : Span) (hlength : noughts + (toString n).length ≤ Decimal.digitLimit) :
    eval host rounds (Expr.negate (.literal .integer
      ⟨String.ofList (decimalDigits noughts n), b⟩) span).toNode s =
      if (n : Int) ≤ intMax then (.ok (.int (-n)), s)
      else (.error (.failure ⟨.literalOutOfRange (String.ofList (decimalDigits noughts n)),
        (Place.span b).location⟩), s) := by
  have hoperand := @eval_decimalDigits noughts n host rounds s b hlength
  change eval host rounds (.tree .negate [_] _) s = _
  rw [eval]
  by_cases hn : (n : Int) ≤ intMax
  · rw [if_pos hn] at hoperand ⊢
    have hwrap : wrap (-n) = -n := by
      refine wrap_of_range ?_
      unfold InRange intMin intMax at *
      omega
    rw [Run.located, Run.bind_ok hoperand, negate, hwrap]
    rfl
  · rw [if_neg hn] at hoperand ⊢
    rw [Run.located, Run.bind_error hoperand]
    rfl

end

/-- A whole number in decimal is bound if it and its opposite are words, and out of range if not. -/
theorem runSource_numeral (setting : Setting) (env : Environment) (negative : Bool)
    {noughts n : Nat} (hlength : noughts + (toString n).length ≤ Decimal.digitLimit) :
    let z : Int := if negative then -n else n
    setting.runSource env ("x = " ++ numeral negative noughts n) =
      if -intMax ≤ z ∧ z ≤ intMax then ⟨.ok (), env.define "x" (.int z), [.bind "x" (.int z)]⟩
      else
        ⟨.error (.failure ⟨.literalOutOfRange (numeral false noughts n),
          some ⟨1, some (if negative then 6 else 5)⟩⟩), env, []⟩ := by
  have hdigits := isDigits_decimalDigits noughts n
  have hrange : (-intMax ≤ (if negative then -(n : Int) else n) ∧
      (if negative then -(n : Int) else n) ≤ intMax) ↔ (n : Int) ≤ intMax := by
    unfold intMax
    split <;> omega
  have hraw : numeral false noughts n = String.ofList (decimalDigits noughts n) := by
    rw [numeral_eq, if_neg Bool.false_ne_true, String.empty_append]
  simp only [hrange]
  rw [hraw, numeral_eq]
  cases negative with
  | false =>
    obtain ⟨b, hb, hbinds⟩ := binds_integer hdigits
    have heval :=
      @eval_decimalDigits noughts n setting.host setting.rounds ⟨env, []⟩ b hlength
    rw [Place.location, hb] at heval
    rw [if_neg Bool.false_ne_true, String.empty_append]
    by_cases hn : (n : Int) ≤ intMax
    · rw [if_pos hn] at heval ⊢
      exact runSource_of_value hbinds heval
    · rw [if_neg hn] at heval ⊢
      exact runSource_of_failure hbinds (fun _ => rfl) heval
  | true =>
    obtain ⟨b, span, hb, hbinds⟩ := binds_negated hdigits
    have heval := @eval_negated noughts n setting.host setting.rounds ⟨env, []⟩ b span hlength
    rw [Place.location, hb] at heval
    rw [if_pos rfl]
    by_cases hn : (n : Int) ≤ intMax
    · rw [if_pos hn] at heval ⊢
      exact runSource_of_value hbinds heval
    · rw [if_neg hn] at heval ⊢
      exact runSource_of_failure hbinds (fun _ => rfl) heval

/-- A text between two quotes is bound as it is. -/
theorem runSource_quotedText (setting : Setting) (env : Environment) {mark : Char}
    (hmark : mark = '\x22' ∨ mark = '\x27') {s : String} (hs : mark ∉ s.toList) :
    setting.runSource env ("x = " ++ quotedText mark s) =
      ⟨.ok (), env.define "x" (.string s), [.bind "x" (.string s)]⟩ := by
  obtain ⟨b, hbinds⟩ := binds_string hmark hs
  have hvalue : literalValue .string (quotedText mark s) = .ok (.string s) :=
    congrArg (fun t => Except.ok (Value.string t)) (unquote_quotedText hmark s)
  exact runSource_of_value hbinds (eval_constant hvalue)

/-- What a source binds `x` to that says `x = ` and then a literal. A whole number in decimal, with
any number of noughts in front and perhaps a sign, but no more digits than can be read, is bound if
it is neither beyond the largest word nor below its opposite. Any other one is out of range, so that
nothing is bound; the least word is such, since its digits alone are not one. A text without one of
the two quotes is bound, character by character, if it stands between two of these. -/
theorem literals_denote (setting : Setting) (env : Environment) :
    (∀ (negative : Bool) (noughts n : Nat),
      noughts + (toString n).length ≤ Decimal.digitLimit →
      let z : Int := if negative then -n else n
      setting.runSource env ("x = " ++ numeral negative noughts n) =
        if -intMax ≤ z ∧ z ≤ intMax then ⟨.ok (), env.define "x" (.int z), [.bind "x" (.int z)]⟩
        else
          ⟨.error (.failure ⟨.literalOutOfRange (numeral false noughts n),
            some ⟨1, some (if negative then 6 else 5)⟩⟩), env, []⟩) ∧
      ∀ (mark : Char) (s : String), mark = '\x22' ∨ mark = '\x27' → mark ∉ s.toList →
        setting.runSource env ("x = " ++ quotedText mark s) =
          ⟨.ok (), env.define "x" (.string s), [.bind "x" (.string s)]⟩ :=
  ⟨fun negative _ _ hlength => runSource_numeral setting env negative hlength,
    fun _ _ hmark hs => runSource_quotedText setting env hmark hs⟩

/-- The least word cannot be written; a text may hold a newline, a brace, a comment and the other
quote. -/
theorem literals_denote_least :
    let setting := Setting.ofHost .standard
    let env := Registry.standard.environment
    let text := "it's \x7b\n# not"
    2 + (toString 9223372036854775808).length ≤ Decimal.digitLimit ∧
      setting.runSource env "x = -009223372036854775808" =
        ⟨.error (.failure ⟨.literalOutOfRange "009223372036854775808", some ⟨1, some 6⟩⟩),
          env, []⟩ ∧
      '\x22' ∉ text.toList ∧
      setting.runSource env ("x = \"" ++ text ++ "\"") =
        ⟨.ok (), env.define "x" (.string text), [.bind "x" (.string text)]⟩ := by
  intro setting env text
  obtain ⟨hnumeral, hquoted⟩ := literals_denote setting env
  have hlength : 2 + (toString 9223372036854775808).length ≤ Decimal.digitLimit := by decide +kernel
  have hmark : '\x22' ∉ text.toList := by decide
  have hleast := hnumeral true 2 9223372036854775808 hlength
  have hraw : numeral false 2 9223372036854775808 = "009223372036854775808" := by decide +kernel
  have hsource : "x = " ++ numeral true 2 9223372036854775808 = "x = -009223372036854775808" := by
    decide +kernel
  have htext : "x = " ++ quotedText '\x22' text = "x = \"" ++ text ++ "\"" := by decide +kernel
  rw [hsource, hraw] at hleast
  have hbound := hquoted '\x22' text (.inl rfl) hmark
  rw [htext] at hbound
  exact ⟨hlength, hleast, hmark, hbound⟩

end Scriptlet
