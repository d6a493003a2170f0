import Mathlib.Data.List.DropRight
import Scriptlet.Proofs.Shell.Nesting
import Scriptlet.Proofs.Shell.Sessions
import Scriptlet.Proofs.Unlocating
import Scriptlet.Proofs.Widening
/-!
# Typing sources

A source is typed at a prompt line by line. As long as a block is open, each line is continued by
one that is indented, and what is accepted in the end is the source with these spaces in it. Main
statement: a source all of whose newlines are in open blocks and in no string is accepted as a
whole, once, and comes to what it comes to when it is run (`turns_of_typing`). In a string that goes
over a line the two part: it is taken to be left open, and a brace in it counts
(`turns_of_typing_string`).
-/

namespace Scriptlet

open Source (Program Gap Trailing Piece Terminal read)

namespace Shell

/-- The lines of a source, without the newlines between them. -/
def lines (source : String) : List String := (source.toList.splitOn '\n').map String.ofList

/-- A text, from an offset of a source on, with the spaces that each newline brings with it when the
blocks at its offset are open. -/
def indentedFrom (depth : Nat → Int) (offset : Nat) : List Char → List Char
  | [] => []
  | c :: cs =>
    let rest := indentedFrom depth (offset + 1) cs
    if c = '\n' then (continuation (depth offset)).toList ++ rest else c :: rest

/-- What the prompt holds when a source has been typed. -/
def indented (source : String) : String :=
  String.ofList (indentedFrom (openBlocks source) 0 source.toList)

variable {depth : Nat → Int}

theorem indentedFrom_append (offset : Nat) (cs ds : List Char) :
    indentedFrom depth offset (cs ++ ds) =
      indentedFrom depth offset cs ++ indentedFrom depth (offset + cs.length) ds := by
  induction cs generalizing offset with
  | nil => rfl
  | cons c cs ih =>
    have hoffset : offset + 1 + cs.length = offset + (c :: cs).length := by
      rw [List.length_cons]
      omega
    rw [List.cons_append, indentedFrom, indentedFrom, ih, hoffset]
    split
    · rw [List.append_assoc]
    · rfl

theorem widened_indentedFrom (offset : Nat) (cs : List Char) :
    Widened cs (indentedFrom depth offset cs) := by
  induction cs generalizing offset with
  | nil => exact .nil
  | cons c cs ih =>
    rw [indentedFrom]
    split
    next hc =>
      subst hc
      rw [continuation, String.toList_ofList]
      exact .newline _ (ih _)
    next hc => exact .char hc (ih _)

/-! ## Prompts -/

/-- The end of what is typed may as well be the beginning of the line. -/
theorem prompts_shift (typed head line : String) (lines : List (Option String)) :
    prompts typed (some (head ++ line) :: lines) =
      prompts (typed ++ head) (some line :: lines) := by
  rw [prompts, prompts, ← String.append_assoc]

theorem prompts_more {typed line : String} (h : 0 < braceDepth (typed ++ line))
    (lines : List (Option String)) :
    prompts typed (some line :: lines) =
      prompts (typed ++ line ++ continuation (braceDepth (typed ++ line))) lines := by
  rw [prompts]
  exact if_pos h

theorem prompts_taken {typed line : String} (h : braceDepth (typed ++ line) ≤ 0)
    (lines : List (Option String)) :
    prompts typed (some line :: lines) =
      (.text (typed ++ line) :: (prompts "" lines).1, (prompts "" lines).2) := by
  rw [prompts]
  exact if_neg (Int.not_lt.mpr h)

/-- If the braces of what is typed tell the open blocks at each newline, and there are some but none
at the end, the prompt comes to one text. -/
theorem prompts_typed {source : List Char}
    (hbreak : ∀ before after, source = before ++ '\n' :: after →
      braceBalance (indentedFrom depth 0 before) = depth before.length ∧ 0 < depth before.length)
    (hend : braceBalance (indentedFrom depth 0 source) ≤ 0) (more : List (Option String))
    {before rest : List Char} (h : source = before ++ rest) :
    prompts (String.ofList (indentedFrom depth 0 before))
        ((rest.splitOn '\n').map (some ∘ String.ofList) ++ more) =
      (.text (String.ofList (indentedFrom depth 0 source)) :: (prompts "" more).1,
        (prompts "" more).2) := by
  have hdepth : ∀ cs, braceDepth (String.ofList cs ++ String.ofList []) = braceBalance cs := by
    intro cs
    rw [← String.ofList_append, List.append_nil, braceDepth, String.toList_ofList]
  -- character by character: a newline continues the line, any other goes into what is typed
  induction rest generalizing before with
  | nil =>
    rw [List.append_nil] at h
    subst h
    rw [List.splitOn_nil, List.map_singleton, List.singleton_append, Function.comp_apply,
      prompts_taken ((hdepth _).trans_le hend), ← String.ofList_append, List.append_nil]
  | cons c cs ih =>
    have hnext := @ih (before ++ [c]) (by rw [h, List.append_assoc]; rfl)
    rw [indentedFrom_append, Nat.zero_add, String.ofList_append] at hnext
    rw [← hnext, List.splitOn_cons_eq_if_modifyHead]
    by_cases hc : c = '\n'
    · subst hc
      obtain ⟨hbefore, hopen⟩ := hbreak before cs h
      have hpositive : 0 < braceDepth (String.ofList (indentedFrom depth 0 before) ++
          String.ofList []) := by
        rwa [hdepth, hbefore]
      have hbegun : String.ofList (indentedFrom depth before.length ['\n']) =
          continuation (depth before.length) := by
        rw [indentedFrom, if_pos rfl, indentedFrom, List.append_nil, String.ofList_toList]
      rw [if_pos (by decide), List.map_cons, List.cons_append, Function.comp_apply,
        prompts_more hpositive, hdepth, hbefore, ← String.ofList_append, List.append_nil, hbegun]
    · obtain ⟨line, lines, hlines⟩ := List.exists_cons_of_ne_nil (List.splitOn_ne_nil '\n' cs)
      have hhead : String.ofList (c :: line) =
          String.ofList (indentedFrom depth before.length [c]) ++ String.ofList line := by
        rw [indentedFrom, if_neg hc, indentedFrom, ← String.ofList_append]
        rfl
      rw [if_neg (by simpa using hc), hlines, List.modifyHead_cons, List.map_cons, List.map_cons,
        List.cons_append, List.cons_append, Function.comp_apply, Function.comp_apply, hhead,
        prompts_shift]

/-- Lines whose prompt comes to one text are answered by accepting it. -/
theorem turns_taken {typed text : String} {lines more : List (Option String)}
    (h : prompts typed lines = (.text text :: (prompts "" more).1, (prompts "" more).2))
    (c : Console) :
    turns c typed lines =
      (⟨.accepted text, (c.accept text).2.1, (c.accept text).2.2⟩, (c.accept text).1) ::
        (if (c.accept text).2.2.isSome then [] else turns (c.accept text).1 "" more) := by
  rw [turns_eq_session, h, session, turns_eq_session]

/-! ## Sources that can be typed -/

/-- What makes a source one to be typed line by line: no character is dropped, each newline is in an
open block, and no string goes over a line. -/
structure Typable (source : String) : Prop where
  visible : normalize source = source
  nested : ∀ offset < source.toList.length, source.toList[offset]? = some '\n' →
    0 < openBlocks source offset
  flat : ∀ t ∈ tokensOf source, t.terminal = .string → '\n' ∉ t.text

instance (source : String) : Decidable (Typable source) :=
  decidable_of_iff
    (normalize source = source ∧
      (∀ offset < source.toList.length, source.toList[offset]? = some '\n' →
        0 < openBlocks source offset) ∧
      ∀ t ∈ tokensOf source, t.terminal = .string → '\n' ∉ t.text)
    ⟨fun ⟨visible, nested, flat⟩ => ⟨visible, nested, flat⟩,
      fun ⟨visible, nested, flat⟩ => ⟨visible, nested, flat⟩⟩

theorem forall_of_widened {P : Char → Prop} {cs ds : List Char} (h : Widened cs ds)
    (hspace : P ' ') (hcs : ∀ c ∈ cs, P c) : ∀ d ∈ ds, P d := by
  induction h with
  | nil => exact hcs
  | char hc _ ih =>
    obtain ⟨hhead, htail⟩ := List.forall_mem_cons.mp hcs
    exact List.forall_mem_cons.mpr ⟨hhead, ih htail⟩
  | newline count _ ih =>
    obtain ⟨hhead, htail⟩ := List.forall_mem_cons.mp hcs
    refine List.forall_mem_cons.mpr ⟨hhead, List.forall_mem_append.mpr ⟨?_, ih htail⟩⟩
    intro d hd
    rwa [List.eq_of_mem_replicate hd]

theorem normalize_eq_self {text : String} :
    normalize text = text ↔ ∀ c ∈ text.toList, (!invisible.contains c.toNat) = true := by
  rw [normalize, ← String.toList_inj, String.toList_ofList, List.filter_eq_self]

/-- The braces of an indented text that is made of gaps and tokens. -/
theorem braceBalance_widened {ps : List Piece} {last ds : List Char}
    (hps : ∀ x ∈ ps, x.Fits ∧ '\n' ∉ x.text) (hlast : Trailing last)
    (h : Widened (Source.written ps ++ last) ds) :
    braceBalance ds = nesting (ps.map Piece.terminal) := by
  obtain ⟨qs, last', rfl, hqs, hlast'⟩ := pieces_of_widened (fun x hx => (hps x hx).2) h
  have hfits := fits_of_widens hqs fun x hx => (hps x hx).1
  have hterminals : qs.map Piece.terminal = ps.map Piece.terminal := by
    have hwords := congrArg (List.map Prod.fst) (words_of_widens hqs)
    rwa [List.map_map, List.map_map] at hwords
  rw [braceBalance_written hfits, braceBalance_trailing (hlast'.trailing hlast), hterminals,
    Int.add_zero]

section

variable {source : String} {program : Program}

theorem Typable.flat_tokens (h : Typable source) (hread : read source = .ok program) :
    ∀ t ∈ tokensOf source, '\n' ∉ t.text := by
  intro t ht
  by_cases hstring : t.terminal = .string
  · exact h.flat t ht hstring
  · exact not_newline_of_spells ((Source.derives_of_read hread).1 t ht) hstring

/-- At a newline the braces of what has been typed tell the open blocks. -/
theorem braceBalance_typed (h : Typable source) (hread : read source = .ok program)
    {before after : List Char} (hcut : source.toList = before ++ '\n' :: after) :
    braceBalance (indentedFrom (openBlocks source) 0 before) = openBlocks source before.length := by
  obtain ⟨qs, gap, rfl, hgap, hqs, hopen⟩ := newline_of_read hread (h.flat_tokens hread) hcut
  rw [braceBalance_widened hqs hgap (widened_indentedFrom 0 _), hopen]

/-- At the end of a source no block is open. -/
theorem braceBalance_indented (h : Typable source) (hread : read source = .ok program) :
    braceBalance (indentedFrom (openBlocks source) 0 source.toList) = 0 := by
  obtain ⟨ps, last, hsource, hscans, hd⟩ := Source.pieces_of_read hread
  have hflat := flat_of_scans hsource hscans (h.flat_tokens hread)
  have hwidened := @widened_indentedFrom (openBlocks source) 0 source.toList
  rw [hsource] at hwidened
  rw [hsource, braceBalance_widened (fun x hx => ⟨hscans.fits x hx, hflat x hx⟩) hscans.trailing
    hwidened, ← Source.terminals_placed .start]
  exact nesting_of_derives hd rfl

/-! ## Acceptance -/

theorem not_blank_of_isWordStart {c : Char} (h : Source.isWordStart c = true) :
    Text.isBlank c = false := by
  have hrange : 0x41 ≤ c.toNat ∧ c.toNat ≤ 0x7a := by
    rcases Bool.or_eq_true_iff.mp h with hletter | hmark
    · rcases Bool.or_eq_true_iff.mp hletter with hupper | hlower
      · obtain ⟨hlow, hhigh⟩ := of_decide_eq_true hupper
        have hlow : 0x41 ≤ c.toNat := UInt32.le_iff_toNat_le.mp hlow
        have hhigh : c.toNat ≤ 0x5a := UInt32.le_iff_toNat_le.mp hhigh
        omega
      · obtain ⟨hlow, hhigh⟩ := Bool.and_eq_true_iff.mp hlower
        have hlow : 0x61 ≤ c.toNat := UInt32.le_iff_toNat_le.mp (of_decide_eq_true hlow)
        have hhigh : c.toNat ≤ 0x7a := UInt32.le_iff_toNat_le.mp (of_decide_eq_true hhigh)
        omega
    · obtain rfl := of_decide_eq_true hmark
      decide
  simp only [Text.isBlank, Text.isSpace, Bool.or_eq_false_iff, Bool.and_eq_false_iff,
    beq_eq_false_iff_ne, decide_eq_false_iff_not, List.contains_eq_mem, List.mem_cons,
    List.not_mem_nil, or_false]
  omega

/-- A token that may begin a statement does not begin like a command. -/
theorem not_command_of_expects {k : Terminal} {text : List Char}
    (hk : Source.Mode.line.expects k = true) (hs : k.Spells text) :
    ∃ c tail, text = c :: tail ∧ Text.isBlank c = false ∧ c ≠ '/' := by
  cases k with
  | identifier =>
    obtain ⟨c, tail, rfl, hc, -⟩ := hs
    refine ⟨c, tail, rfl, not_blank_of_isWordStart hc, ?_⟩
    rintro rfl
    exact absurd hc (by decide)
  | ifWord | unlessWord | whileWord | untilWord | rightBrace =>
    obtain ⟨w, hw, rfl⟩ := List.mem_map.mp hs
    obtain rfl := List.mem_singleton.mp hw
    exact ⟨_, _, rfl, by decide, by decide⟩
  | _ => exact absurd hk (by decide)

theorem not_command_cons {c : Char} (hblank : Text.isBlank c = false) (hslash : c ≠ '/')
    (cs : List Char) : ((c :: cs).dropWhile Text.isBlank).head? ≠ some '/' := by
  rw [List.dropWhile_cons, hblank, if_neg (by decide)]
  exact fun h => hslash (Option.some.inj h)

theorem not_command_of_gap {gap rest : List Char} (h : Gap gap)
    (hrest : (rest.dropWhile Text.isBlank).head? ≠ some '/') :
    ((gap ++ rest).dropWhile Text.isBlank).head? ≠ some '/' := by
  induction h with
  | nil => exact hrest
  | @blank c cs hc _ ih =>
    have hblank : Text.isBlank c = true := by
      simp only [Source.isGap, Bool.or_eq_true, decide_eq_true_eq] at hc
      obtain ((rfl | rfl) | rfl) | rfl := hc <;> decide
    rwa [List.cons_append, List.dropWhile_cons, if_pos hblank]
  | comment => exact not_command_cons (by decide) (by decide) _

theorem not_command_of_trailing {last : List Char} (h : Trailing last) :
    (last.dropWhile Text.isBlank).head? ≠ some '/' := by
  cases h with
  | gap h => exact List.append_nil last ▸ not_command_of_gap h nofun
  | comment h => exact not_command_of_gap h (not_command_cons (by decide) (by decide) _)

/-- The pieces of a source, and what its first token is. -/
theorem pieces_begun (hread : read source = .ok program) :
    ∃ ps last, source.toList = Source.written ps ++ last ∧ Trailing last ∧
      ∀ x ∈ ps.head?, x.Fits ∧ Source.Mode.line.expects x.terminal = true := by
  obtain ⟨ps, last, hsource, hscans, hd⟩ := Source.pieces_of_read hread
  refine ⟨ps, last, hsource, hscans.trailing, fun x hx => ?_⟩
  refine ⟨hscans.fits x (List.mem_of_head? hx), ?_⟩
  obtain ⟨rest, rfl⟩ := List.head?_eq_some_iff.mp hx
  exact (Source.leads_of_derives hd .line (by decide)).1.1

/-- A source that is read is no command. -/
theorem ofText?_of_read (hread : read source = .ok program) : Command.ofText? source = none := by
  obtain ⟨ps, last, hsource, hlast, hfirst⟩ := pieces_begun hread
  have hhead : (source.toList.dropWhile Text.isBlank).head? ≠ some '/' := by
    rw [hsource]
    cases ps with
    | nil => exact not_command_of_trailing hlast
    | cons x ps =>
      obtain ⟨⟨hgap, hs⟩, hk⟩ := hfirst x rfl
      obtain ⟨c, tail, htext, hblank, hslash⟩ := not_command_of_expects hk hs
      rw [Source.written_cons, htext]
      exact not_command_of_gap hgap (not_command_cons hblank hslash _)
  have hprefix : Text.trim source.toList <+: source.toList.dropWhile Text.isBlank :=
    List.rdropWhile_prefix _ _
  rw [Command.ofText?]
  split
  next cs htrim =>
    rw [htrim] at hprefix
    obtain ⟨rest, hrest⟩ := hprefix
    rw [← hrest] at hhead
    exact absurd rfl hhead
  next => rfl

/-- A blank source does nothing when it is run. -/
theorem runSource_of_blank (hread : read source = .ok program)
    (hblank : source.toList.all Text.isBlank = true) (setting : Setting) (env : Environment) :
    setting.runSource env source = ⟨.ok (), env, []⟩ := by
  obtain ⟨ps, last, hsource, hlast, hfirst⟩ := pieces_begun hread
  cases ps with
  | nil =>
    have htokens : (Source.scan source.toList).tokens = [] :=
      tokensOf_of_scans hsource (.done hlast)
    obtain ⟨-, p, hp, hfinish⟩ := Source.read_eq_ok.mp hread
    rw [htokens] at hp
    obtain rfl := Except.ok.inj hp
    obtain rfl := Option.some.inj hfinish
    rw [runSource_eq hread]
    rfl
  | cons x ps =>
    obtain ⟨⟨-, hs⟩, hk⟩ := hfirst x rfl
    obtain ⟨c, tail, htext, hc, -⟩ := not_command_of_expects hk hs
    have hmem : c ∈ source.toList := by
      rw [hsource, Source.written_cons, htext]
      simp
    rw [List.all_eq_true.mp hblank c hmem] at hc
    cases hc

/-- A source is run when it is accepted, even if it is passed over because it is blank. -/
theorem accept_of_read {c : Console} (hread : read source = .ok program)
    (hclean : normalize source = source) (hown : c.read = .own) :
    (c.accept source).1.work = c.work.keep (c.work.run source) ∧
      (c.accept source).2.1.out = (c.work.run source).output := by
  have hrun : c.run source = c.work.run source := by
    rw [Console.run, hown]
    rfl
  have hcommand := ofText?_of_read hread
  rw [accept_eq]
  by_cases hblank : source.toList.all Text.isBlank = true
  · have hdeed : Deed.ofText source = .nothing := by
      rw [Deed.ofText, hclean]
      exact if_pos hblank
    rw [hdeed, Workspace.run, runSource_of_blank hread hblank]
    exact ⟨rfl, rfl⟩
  · have hdeed : Deed.ofText source = .source source := by
      rw [Deed.ofText, hclean, hcommand]
      exact if_neg hblank
    rw [hdeed, Console.carryOut, hrun]
    split
    · exact ⟨rfl, rfl⟩
    · split
      · exact ⟨rfl, String.append_empty⟩
      · exact ⟨rfl, rfl⟩

/-! ## Typing -/

theorem widened_indented (source : String) : Widened source.toList (indented source).toList := by
  rw [indented, String.toList_ofList]
  exact widened_indentedFrom 0 _

/-- The lines of a source come to one text. -/
theorem prompts_lines (hread : read source = .ok program) (h : Typable source)
    (more : List (Option String)) :
    prompts "" ((lines source).map some ++ more) =
      (.text (indented source) :: (prompts "" more).1, (prompts "" more).2) := by
  have hbreak : ∀ before after, source.toList = before ++ '\n' :: after →
      braceBalance (indentedFrom (openBlocks source) 0 before) = openBlocks source before.length ∧
        0 < openBlocks source before.length := by
    intro before after hcut
    refine ⟨braceBalance_typed h hread hcut, h.nested _ ?_ ?_⟩
    · rw [hcut, List.length_append, List.length_cons]
      omega
    · rw [hcut, List.getElem?_append_right le_rfl, Nat.sub_self, List.getElem?_cons_zero]
  rw [lines, List.map_map]
  exact @prompts_typed _ _ hbreak (braceBalance_indented h hread).le more [] _ rfl

/-- A source all of whose newlines are in open blocks, and in no string, is typed line by line. Each
line but the last is continued, and behind the last one the whole of it is accepted, once. Nothing
is dropped from it; run in any environment it comes to what the source comes to, places apart; and
that is what becomes of the environment of the shell, and what the shell prints. -/
theorem turns_of_typing (hread : read source = .ok program) (h : Typable source) (c : Console)
    (more : List (Option String)) :
    let text := indented source
    let taken := c.accept text
    turns c "" ((lines source).map some ++ more) =
        (⟨.accepted text, taken.2.1, taken.2.2⟩, taken.1) ::
          (if taken.2.2.isSome then [] else turns taken.1 "" more) ∧
      normalize text = text ∧
      (∀ (setting : Setting) (env : Environment),
        (setting.runSource env text).unlocated = (setting.runSource env source).unlocated) ∧
      (c.read = .own →
        taken.1.work.env = (c.work.run source).env ∧
          taken.2.1.out = (c.work.run source).output) := by
  have hwidened := widened_indented source
  obtain ⟨q, hq, hunplaced⟩ := read_of_widened hread (h.flat_tokens hread) hwidened
  have hclean : normalize (indented source) = indented source :=
    normalize_eq_self.mpr (forall_of_widened hwidened (by decide) (normalize_eq_self.mp h.visible))
  have hsame := unlocated_runSource hread hq hunplaced
  refine ⟨turns_taken (prompts_lines hread h more) c, hclean, hsame, fun hown => ?_⟩
  obtain ⟨hwork, hout⟩ := accept_of_read hq hclean hown
  have henv := congrArg Outcome.env (hsame c.work.setting c.work.env)
  have houtput := congrArg Outcome.output (hsame c.work.setting c.work.env)
  rw [hwork, hout]
  exact ⟨henv, houtput⟩

/-- A block in a block, with braces and quotes in strings and comments, and with a failure. -/
theorem turns_of_typing_nested :
    let source := "x = 3 if x < 4 \x7b # don't \x7b\n\n\tuntil x == 5 \x7b\nPrint('\x7d\"', x)\n" ++
      "x = x + 1 # \"\x7d\n\x7d\x7d y = x / 0"
    let c : Console := ⟨.standard, false, true, none⟩
    Typable source ∧ ∃ program, read source = .ok program ∧
      let text := indented source
      let taken := c.accept text
      turns c "" ((lines source).map some ++ [none]) =
          (⟨.accepted text, taken.2.1, taken.2.2⟩, taken.1) ::
            (if taken.2.2.isSome then [] else turns taken.1 "" [none]) ∧
        normalize text = text ∧
        (∀ (setting : Setting) (env : Environment),
          (setting.runSource env text).unlocated = (setting.runSource env source).unlocated) ∧
        (c.read = .own →
          taken.1.work.env = (c.work.run source).env ∧
            taken.2.1.out = (c.work.run source).output) := by
  intro source c
  have h : Typable source := by decide +kernel
  have hok : (read source).isOk = true := by decide +kernel
  obtain ⟨program, hread⟩ := Source.exists_of_isOk hok
  exact ⟨h, program, hread, turns_of_typing hread h c [none]⟩

/-- A source with a string that goes over a line, and with a brace in it. It is read, nothing would
be dropped from it, and each of its newlines is in an open block. But the line in which the string
begins is not continued. -/
theorem turns_of_typing_string :
    let source := "if true \x7b\nx = \"\x7d\n\"\nPrint(\"done\")\n\x7d"
    (read source).isOk = true ∧ normalize source = source ∧
      (∀ offset < source.toList.length, source.toList[offset]? = some '\n' →
        0 < openBlocks source offset) ∧
      (turns ⟨.standard, false, false, none⟩ "" ((lines source).map some)).map (·.1.turn) =
        [.accepted "if true \x7b\n    x = \"\x7d", .accepted "\"", .accepted "Print(\"done\")",
          .accepted "\x7d", .ended ""] := by
  decide +kernel

/-- Without a brace in it, such a string takes up the spaces. -/
example :
    (Workspace.standard.run (indented "if true \x7b\nPrint(\"a\nb\")\n\x7d")).output =
      "a\n    b\n" := by
  decide +kernel

end

end Shell

end Scriptlet
