import Scriptlet.Proofs.Shell.Nesting
import Scriptlet.Proofs.Stopping
import Scriptlet.Shell.Dialogue
/-!
# Open blocks at a cut

The shell counts braces in a text that may break off anywhere; the reading of a program keeps the
blocks that are open. The two agree wherever a program is cut outside its strings. Each step of the
reading opens and closes what its token says (`depth_step`), so the tokens that are read tell the
depth (`depth_readAll`), and what lies between the last whole token and the cut, a part of a gap or
of a token, holds no brace that counts (`braceBalance_cut`). Main statement: the braces before a cut
are the blocks that are open there, and the end of a line there is continued exactly if one is
(`braceDepth_of_cut`).
-/

namespace Scriptlet

open Source

/-! ## Reading -/

namespace Source.Progress

def depth (p : Progress) : Int := p.outer.length

variable {p q : Progress} {t : Token}

theorem nesting_of_keyword {k : Terminal} (h : (keyword? k).isSome = true) : k.nesting = 0 := by
  cases k <;> first | rfl | cases h

theorem nesting_of_literal {k : Terminal} (h : (literal? k).isSome = true) : k.nesting = 0 := by
  cases k <;> first | rfl | cases h

theorem nesting_of_level {k : Terminal} (h : (level? k).isSome = true) : k.nesting = 0 := by
  cases k <;> first | rfl | cases h

/-- A progress in the same blocks is as deep. -/
theorem depth_of_outer (h : q.outer = p.outer) (ht : t.terminal.nesting = 0) :
    q.depth = p.depth + t.terminal.nesting := by
  rw [depth, h, ht, Int.add_zero, depth]

theorem depth_of_some {r : Progress} (h : some r = some q) (hr : r.outer = p.outer)
    (ht : t.terminal.nesting = 0) : q.depth = p.depth + t.terminal.nesting := by
  obtain rfl := Option.some.inj h
  exact depth_of_outer hr ht

theorem depth_beginGuard {arms : List Arm} (h : p.beginGuard arms t = some q) :
    q.depth = p.depth + t.terminal.nesting := by
  obtain ⟨k, hk, rfl⟩ := Option.map_eq_some_iff.mp h
  exact depth_of_outer rfl (nesting_of_keyword (by rw [hk]; rfl))

theorem depth_openBlock (p : Progress) (opening : Opening) (ht : t.terminal = .leftBrace) :
    (p.openBlock opening).depth = p.depth + t.terminal.nesting := by
  rw [ht]
  exact Int.natCast_succ _

theorem depth_closeBlock (h : p.closeBlock t = some q) (ht : t.terminal = .rightBrace) :
    q.depth = p.depth + t.terminal.nesting := by
  obtain ⟨scope, outer, point⟩ := p
  cases outer with
  | nil => cases h
  | cons x outer =>
    obtain ⟨opening, around⟩ := x
    obtain ⟨r, hr, houter, -⟩ := closeBlock_cons scope opening around outer point t
    obtain rfl := Option.some.inj (hr.symm.trans h)
    rw [depth, depth, houter, ht, List.length_cons, Int.natCast_succ]
    exact (Int.add_neg_cancel_right _ 1).symm

theorem depth_stepLine {semicolon : Bool} (h : p.stepLine semicolon t = some q) :
    q.depth = p.depth + t.terminal.nesting := by
  unfold stepLine at h
  split at h
  next ht =>
    split at h
    · exact depth_of_some h rfl (by rw [ht]; rfl)
    · cases h
  next ht => exact depth_of_some h rfl (by rw [ht]; rfl)
  next ht => exact depth_closeBlock h ht
  next => exact depth_beginGuard h

theorem depth_stepNamed {name : Word} (h : p.stepNamed name t = some q) :
    q.depth = p.depth + t.terminal.nesting := by
  unfold stepNamed at h
  split at h
  next ht => exact depth_of_some h rfl (by rw [ht]; rfl)
  next ht => exact depth_of_some h rfl (by rw [ht]; rfl)
  next => cases h

theorem outer_closeCall {e : Expecting} {args : List Expr} (h : p.closeCall e args t = some q) :
    q.outer = p.outer := by
  unfold closeCall at h
  split at h
  next =>
    obtain rfl := Option.some.inj h
    rfl
  next => cases h
  next =>
    split at h
    · obtain rfl := Option.some.inj h
      rfl
    · cases h

theorem depth_stepOperand {e : Expecting} {closable : Bool}
    (h : p.stepOperand e closable t = some q) : q.depth = p.depth + t.terminal.nesting := by
  unfold stepOperand at h
  split at h
  next ht => exact depth_of_some h rfl (by rw [ht]; rfl)
  next ht => exact depth_of_some h rfl (by rw [ht]; rfl)
  next ht => exact depth_of_some h rfl (by rw [ht]; rfl)
  next ht =>
    split at h
    · exact depth_of_outer (outer_closeCall h) (by rw [ht]; rfl)
    · cases h
  next =>
    obtain ⟨kind, hkind, rfl⟩ := Option.map_eq_some_iff.mp h
    exact depth_of_outer rfl (nesting_of_literal (by rw [hkind]; rfl))

theorem depth_stepComplete {e : Expecting} {o : Operand} (h : p.stepComplete e o t = some q) :
    q.depth = p.depth + t.terminal.nesting := by
  unfold stepComplete at h
  split at h
  next =>
    split at h
    next ht => exact depth_of_some h rfl (by rw [ht]; rfl)
    next => cases h
  next =>
    split at h
    next ht => exact depth_of_some h rfl (by rw [ht]; rfl)
    next ht => exact depth_of_outer (outer_closeCall h) (by rw [ht]; rfl)
    next => cases h
  next =>
    split at h
    next => exact (depth_stepLine h :)
    next =>
      split at h
      next ht =>
        obtain rfl := Option.some.inj h
        exact depth_openBlock p _ ht
      next => cases h
    next =>
      split at h
      next ht => exact depth_of_some h rfl (by rw [ht]; rfl)
      next ht => exact depth_of_outer (outer_closeCall h) (by rw [ht]; rfl)
      next => cases h

theorem depth_stepOperator {e : Expecting} {o : Operand} {name : Option Word}
    (h : p.stepOperator e o name t = some q) : q.depth = p.depth + t.terminal.nesting := by
  unfold stepOperator at h
  split at h
  next ht => exact depth_of_some h rfl (by rw [ht]; rfl)
  next =>
    split at h
    next hlevel =>
      obtain rfl := Option.some.inj h
      exact depth_of_outer rfl (nesting_of_level (by rw [hlevel]; rfl))
    next => exact depth_stepComplete h

theorem depth_stepClosed {arm : Arm} {arms : List Arm} (h : p.stepClosed arm arms t = some q) :
    q.depth = p.depth + t.terminal.nesting := by
  unfold stepClosed at h
  split at h
  next ht => exact depth_of_some h rfl (by rw [ht]; rfl)
  next => exact (depth_stepLine h :)

theorem depth_stepBranch {arm : Arm} {arms : List Arm} (h : p.stepBranch arm arms t = some q) :
    q.depth = p.depth + t.terminal.nesting := by
  unfold stepBranch at h
  split at h
  next ht =>
    obtain rfl := Option.some.inj h
    exact depth_openBlock p _ ht
  next => exact depth_beginGuard h

/-- A step opens and closes the blocks that its token does. -/
theorem depth_step (h : p.step t = some q) : q.depth = p.depth + t.terminal.nesting := by
  unfold step at h
  split at h
  next => exact depth_stepLine h
  next => exact depth_stepNamed h
  next => exact depth_stepOperand h
  next => exact depth_stepOperator h
  next => exact depth_stepClosed h
  next => exact depth_stepBranch h

/-- The tokens that are read open the blocks that are open behind them. -/
theorem depth_readAll {ts : List Token} (h : p.readAll ts = .ok q) :
    q.depth = p.depth + nesting (terminals ts) := by
  induction ts generalizing p with
  | nil =>
    obtain rfl := Except.ok.inj h
    exact (Int.add_zero _).symm
  | cons t ts ih =>
    rw [readAll] at h
    split at h
    next next hstep =>
      rw [ih h, depth_step hstep, Int.add_assoc]
      rfl
    next => cases h

end Source.Progress

/-! ## Cuts -/

namespace Shell

/-- The part of a token in front of a cut, unless it is a string, holds no brace. -/
theorem braceBalance_token {k : Terminal} {text rest : List Char} (hs : k.Spells (text ++ rest))
    (htext : text ≠ []) (hrest : rest ≠ []) (hk : k ≠ .string) :
    k.nesting = 0 ∧ braceBalance text = 0 := by
  have hzero : k.nesting = 0 := by
    by_contra hbrace
    have hlength : (text ++ rest).length = 1 := by
      cases k <;> first | exact absurd rfl hbrace | skip
      all_goals
        obtain ⟨w, hw, hwritten⟩ := List.mem_map.mp hs
        obtain rfl := List.mem_singleton.mp hw
        rw [← hwritten]
        rfl
    have htext := List.length_pos_iff.mpr htext
    have hrest := List.length_pos_iff.mpr hrest
    rw [List.length_append] at hlength
    omega
  have hplain := (List.forall_mem_append.mp (plain_of_spells hs hk hzero)).1
  refine ⟨hzero, ?_⟩
  have hbalance := braceBalance_plain hplain []
  rwa [List.append_nil, braceBalance] at hbalance

/-- The braces in front of a cut through a token that is no string are those of the tokens that have
begun. -/
theorem braceBalance_cut {ps : List Piece} {x : Piece} {text rest : List Char}
    (hps : ∀ y ∈ ps ++ [x], y.Fits) (hx : x.text = text ++ rest) (htext : text ≠ [])
    (hrest : rest ≠ []) (hstring : x.terminal ≠ .string) :
    braceBalance (written ps ++ (x.gap ++ text)) = nesting ((ps ++ [x]).map Piece.terminal) := by
  obtain ⟨hps, hfits⟩ := List.forall_mem_append.mp hps
  obtain ⟨hgap, hs⟩ := List.forall_mem_singleton.mp hfits
  rw [hx] at hs
  obtain ⟨hzero, hbalance⟩ := braceBalance_token hs htext hrest hstring
  rw [braceBalance_written hps, braceBalance_gap hgap, hbalance, List.map_append, nesting_append,
    List.map_singleton, nesting, nesting, hzero]
  rfl

/-- A cut of a source lies in none of its strings. -/
def OutsideStrings (source : String) (offset : Nat) : Prop :=
  ∀ t ∈ tokensOf source, t.terminal = .string →
    ¬ (t.span.first.offset < offset ∧ offset < t.span.last.offset)

instance (source : String) (offset : Nat) : Decidable (OutsideStrings source offset) :=
  inferInstanceAs (Decidable (∀ t ∈ tokensOf source, t.terminal = .string →
    ¬ (t.span.first.offset < offset ∧ offset < t.span.last.offset)))

/-- A token that a cut outside the strings divides is no string. -/
theorem OutsideStrings.not_string {source : String} {ps rs : List Piece} {x : Piece}
    {text rest : List Char}
    (h : OutsideStrings source (written ps ++ (x.gap ++ text)).length)
    (htokens : tokensOf source = placed .start (ps ++ [x] ++ rs)) (hx : x.text = text ++ rest)
    (htext : text ≠ []) (hrest : rest ≠ []) : x.terminal ≠ .string := by
  intro hstring
  let first := (Position.start.advance (written ps)).advance x.gap
  have hmem : (⟨x.terminal, x.text, ⟨first, first.advance x.text⟩⟩ : Token) ∈ tokensOf source := by
    rw [htokens, List.append_assoc, placed_append]
    exact List.mem_append_right _ List.mem_cons_self
  have hfirst : first.offset = (written ps).length + x.gap.length := by
    rw [Position.advance_offset, Position.advance_offset]
    exact congrArg (· + _) (Nat.zero_add _)
  have htext := List.length_pos_iff.mpr htext
  have hrest := List.length_pos_iff.mpr hrest
  refine h _ hmem hstring ⟨?_, ?_⟩
  · change first.offset < _
    rw [hfirst, List.length_append, List.length_append]
    omega
  · change _ < (first.advance x.text).offset
    rw [Position.advance_offset, hfirst, hx, List.length_append, List.length_append,
      List.length_append]
    omega

section

variable {source : String} {program : Program}

/-- The tokens before a cut are read, and they tell the braces in front of it. -/
theorem readAll_of_cut (hread : read source = .ok program) {before after : List Char}
    (hcut : source.toList = before ++ after) (h : OutsideStrings source before.length) :
    ∃ p, Progress.start.readAll (tokensBefore source before.length) = .ok p ∧
      braceBalance before = p.depth ∧ p.depth = openBlocks source before.length := by
  obtain ⟨qs, rs, htokens, hqs, hbegun, hwhere⟩ := cut_of_read hread hcut
  have hbalance : braceBalance before = nesting (qs.map Piece.terminal) := by
    rcases hwhere with ⟨gap, rfl, hgap⟩ | ⟨ps, x, text, rest, rfl, rfl, hx, htext, hrest, -⟩
    · rw [braceBalance_written hqs, braceBalance_trailing hgap, Int.add_zero]
    · exact braceBalance_cut hqs hx htext hrest (h.not_string htokens hx htext hrest)
  obtain ⟨-, q, hq, -⟩ := read_eq_ok.mp hread
  change Progress.start.readAll (tokensOf source) = .ok q at hq
  rw [htokens, placed_append] at hq
  obtain ⟨p, hp⟩ := exists_of_readAll_append hq
  have hdepth : p.depth = nesting (terminals (placed .start qs)) :=
    (Progress.depth_readAll hp).trans (Int.zero_add _)
  refine ⟨p, hbegun ▸ hp, ?_, ?_⟩
  · rw [hbalance, hdepth, terminals_placed]
  · rw [hdepth, openBlocks_eq, hbegun]

/-- The braces of a source come to nothing. -/
theorem braceDepth_of_read (hread : read source = .ok program) : braceDepth source = 0 := by
  obtain ⟨ps, last, hsource, hscans, hd⟩ := pieces_of_read hread
  rw [braceDepth, hsource, braceBalance_written hscans.fits, braceBalance_trailing hscans.trailing,
    Int.add_zero, ← terminals_placed .start]
  exact nesting_of_derives hd rfl

theorem enter_more_iff (c : Console) (typed line : String) :
    (∃ text, c.enter typed line = .more text) ↔ 0 < braceDepth (typed ++ line) := by
  simp only [Console.enter]
  split
  next h => exact iff_of_true ⟨_, rfl⟩ h
  next h => exact iff_of_false nofun h

/-- Wherever a source is cut outside its strings, in a gap, in a comment or in a token, the tokens
that begin before the cut are read, and the shell counts as many braces before it as blocks are open
there, in the reading and by the tokens. The count is never negative, and for the whole source it is
zero. The end of a line at the cut is continued exactly if a block is open. -/
theorem braceDepth_of_cut (hread : read source = .ok program) {before after : String}
    (hcut : source = before ++ after) (h : OutsideStrings source before.length) :
    (∃ p, Progress.start.readAll (tokensBefore source before.length) = .ok p ∧
        braceDepth before = p.depth) ∧
      braceDepth before = openBlocks source before.length ∧
      0 ≤ braceDepth before ∧
      braceDepth source = 0 ∧
      ∀ (c : Console) (typed line : String), typed ++ line = before →
        ((∃ text, c.enter typed line = .more text) ↔ 0 < openBlocks source before.length) := by
  have hchars : source.toList = before.toList ++ after.toList := by
    rw [hcut, String.toList_append]
  obtain ⟨p, hp, hbalance, hdepth⟩ := readAll_of_cut hread hchars h
  refine ⟨⟨p, hp, hbalance⟩, hbalance.trans hdepth, ?_, braceDepth_of_read hread, ?_⟩
  · exact (Int.natCast_nonneg p.outer.length).trans_eq hbalance.symm
  · rintro c typed line rfl
    exact (enter_more_iff c typed line).trans (by rw [braceDepth, hbalance, hdepth]; rfl)

/-- Cut in a comment, behind a string over two lines; quotes, hashes and braces are in both. -/
theorem braceDepth_of_cut_comment :
    let before := "if x < 4 \x7b s = \"don't # \x7b\n\x7d\" unless y \x7b # isn't \x7b \""
    let after := " \x7d\n\x7d else \x7b\x7d Print('\"', s) \x7d"
    let source := before ++ after
    (∃ program, read source = .ok program) ∧ OutsideStrings source before.length ∧
      openBlocks source before.length = 2 ∧ braceDepth before = 2 ∧
      ∀ (c : Console) (typed line : String), typed ++ line = before →
        ∃ text, c.enter typed line = .more text := by
  intro before after source
  have hok : (read source).isOk = true := by decide +kernel
  have h : OutsideStrings source before.length := by decide +kernel
  have hopen : openBlocks source before.length = 2 := by decide +kernel
  obtain ⟨program, hread⟩ := exists_of_isOk hok
  obtain ⟨-, hdepth, -, -, henter⟩ := braceDepth_of_cut hread rfl h
  refine ⟨⟨program, hread⟩, h, hopen, hdepth.trans hopen, fun c typed line htyped => ?_⟩
  rw [henter c typed line htyped, hopen]
  decide

end

end Shell

end Scriptlet
