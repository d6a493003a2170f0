import Mathlib.Data.List.Find
import Scriptlet.Proofs.Moving
import Scriptlet.Proofs.Rendering
import Scriptlet.Proofs.Spans
/-!
# Joining sources

Sources put below one another, with a newline between two. A token is recognised the same way if a
newline and more follow it, and the first token of a source is recognised the same way wherever a
statement may begin, unless it reads `else` and stands behind a block. Main statements: two sources
joined read as the statements of both (`read_join`), and so do any number of them (`read_joined`).
-/

namespace Scriptlet

open Source

/-! ## Lines below -/

theorem takeWhile_below {p : Char → Bool} (hp : p '\n' = false) (cs ds : List Char) :
    (cs ++ '\n' :: ds).takeWhile p = cs.takeWhile p := by
  induction cs with
  | nil => rw [List.nil_append, List.takeWhile_cons, hp]; rfl
  | cons c cs ih => rw [List.cons_append, List.takeWhile_cons, List.takeWhile_cons, ih]

theorem isPrefixOf_below {word : List Char} (hw : '\n' ∉ word) (cs ds : List Char) :
    word.isPrefixOf (cs ++ '\n' :: ds) = word.isPrefixOf cs := by
  induction word generalizing cs with
  | nil => rfl
  | cons w word ih =>
    have hne : w ≠ '\n' := fun e => hw (e ▸ List.mem_cons_self)
    cases cs with
    | nil => simp [List.isPrefixOf, hne]
    | cons c cs =>
      rw [List.cons_append, List.isPrefixOf, List.isPrefixOf,
        ih fun h => hw (List.mem_cons_of_mem w h)]

theorem keywords_newline (m : Mode) : ∀ x ∈ m.keywords, '\n' ∉ x.1.toList := by
  cases m <;> decide

theorem leadingKeyword_below (m : Mode) (cs ds : List Char) :
    leadingKeyword? m (cs ++ '\n' :: ds) = leadingKeyword? m cs := by
  have hfind : m.keywords.find? (·.1.toList.isPrefixOf (cs ++ '\n' :: ds)) =
      m.keywords.find? (·.1.toList.isPrefixOf cs) :=
    List.find?_congr fun x hx => isPrefixOf_below (keywords_newline m x hx) cs ds
  rw [leadingKeyword?, leadingKeyword?, hfind]

theorem fractionLength_newline (cs ds : List Char) :
    fractionLength (cs ++ '\n' :: ds) = fractionLength cs := by
  cases cs with
  | nil => exact fractionLength_of_ne (by decide) ds
  | cons d part =>
    by_cases hd : d = '.'
    · subst hd
      rw [List.cons_append, fractionLength, takeWhile_below (by decide), fractionLength]
    · rw [List.cons_append, fractionLength_of_ne hd, fractionLength_of_ne hd]

theorem numberToken_newline (cs ds : List Char) :
    numberToken (cs ++ '\n' :: ds) = numberToken cs := by
  have hwhole : (cs ++ '\n' :: ds).takeWhile Char.isDigit = cs.takeWhile Char.isDigit :=
    takeWhile_below (by decide) cs ds
  rw [numberToken, numberToken, hwhole, dropWhile_append_of_takeWhile hwhole,
    fractionLength_newline]

/-- No token goes on behind a newline, but for a string that is not closed before it. -/
theorem recognize_newline {m : Mode} {c : Char} {cs : List Char}
    (h : c = '\x22' ∨ c = '\x27' → c ∈ cs) (ds : List Char) :
    recognize m c (cs ++ '\n' :: ds) = recognize m c cs := by
  by_cases hnumber : ¬isWordStart c = true ∧ c.isDigit = true
  · rw [recognize_digit hnumber.1 hnumber.2, recognize_digit hnumber.1 hnumber.2,
      numberToken_newline]
  unfold recognize
  split
  next hc =>
    split
    · exact leadingKeyword_below m (c :: cs) ds
    · rw [takeWhile_below (by decide)]
  next hc =>
    split
    next hdigit => exact absurd ⟨hc, hdigit⟩ hnumber
    next hdigit =>
      split
      next hmark =>
        -- the closing mark stands before the newline
        obtain ⟨inside, rest, rfl, hinside⟩ := List.eq_append_cons_of_mem (h hmark)
        have htake : ∀ after, (inside ++ c :: after).takeWhile (· ≠ c) = inside := by
          intro after
          refine takeWhile_stop (fun d hd => ?_) fun d hd => ?_
          · simp only [ne_eq, decide_not, Bool.not_eq_eq_eq_not, Bool.not_true,
              decide_eq_false_iff_not]
            rintro rfl
            exact hinside hd
          · cases hd
            simp
        simp only [List.append_assoc, List.cons_append, htake]
        rw [if_pos (by simp), if_pos (by simp)]
      next hmark =>
        have hhead : (cs ++ '\n' :: ds).head? = some '=' ↔ cs.head? = some '=' := by
          cases cs with
          | nil => simp
          | cons d cs => rfl
        simp only [hhead]

/-- A token that begins with a quotation mark holds it once more. -/
theorem mem_of_recognize {m : Mode} {c : Char} {cs : List Char} {k : Terminal} {n : Nat}
    (h : recognize m c cs = some (k, n)) (hmark : c = '\x22' ∨ c = '\x27') : c ∈ cs.take n := by
  have hstart : isWordStart c = false ∧ c.isDigit = false := by
    obtain rfl | rfl := hmark <;> decide
  rw [recognize, hstart.1, hstart.2, if_neg (by decide), if_neg (by decide), if_pos hmark] at h
  simp only at h
  split at h
  next hinside =>
    cases h
    obtain ⟨rest, hrest⟩ := dropWhile_ne_eq_cons hinside
    rw [take_past_takeWhile, hrest]
    exact List.mem_append_right _ List.mem_cons_self
  next => cases h

/-- A newline behind a token, and what follows it, change nothing about the token. -/
theorem recognize_below {m : Mode} {c : Char} {cs : List Char} {found : Terminal × Nat}
    (h : recognize m c cs = some found) (ds : List Char) :
    recognize m c (cs ++ '\n' :: ds) = some found := by
  rw [recognize_newline (fun hmark => List.mem_of_mem_take (mem_of_recognize h hmark)), h]

/-! ## Where a statement may begin -/

/-- The modes in which a statement may begin. -/
def begins : List Mode := [.line, .afterOperand, .afterBlock]

theorem after_begins {m : Mode} (hm : m ∈ begins) (k : Terminal) :
    m.after k = Mode.line.after k := by
  simp only [begins, List.mem_cons, List.not_mem_nil, or_false] at hm
  obtain rfl | rfl | rfl := hm <;> cases k <;> rfl

theorem wordTerminal_begins {m : Mode} (hm : m ∈ begins) {word : List Char}
    (helse : m = .afterBlock → word ≠ "else".toList) :
    wordTerminal m word = wordTerminal .line word := by
  simp only [begins, List.mem_cons, List.not_mem_nil, or_false] at hm
  obtain rfl | rfl | rfl := hm
  · rfl
  · rfl
  · have hne : decide ("else".toList = word) = false := decide_eq_false fun e => helse rfl e.symm
    have hkeywords : Mode.afterBlock.keywords = ("else", .elseWord) :: Mode.line.keywords := rfl
    rw [wordTerminal, wordTerminal, hkeywords, List.find?_cons, hne]

/-- A token where a statement begins is the same in every mode, but for `else` behind a block. -/
theorem recognize_begins {m : Mode} (hm : m ∈ begins) {c : Char} {cs : List Char} {k : Terminal}
    {n : Nat} (helse : m = .afterBlock → c :: cs.take n ≠ "else".toList)
    (h : recognize .line c cs = some (k, n)) : recognize m c cs = some (k, n) := by
  have hbranch : m ≠ .branch := by
    rintro rfl
    simp [begins] at hm
  have htarget : m ≠ .target := by
    rintro rfl
    simp [begins] at hm
  have hoperand : m ≠ .operand := by
    rintro rfl
    simp [begins] at hm
  rw [← h]
  unfold recognize at h ⊢
  split
  next hc =>
    rw [if_pos hc, if_neg (by decide)] at h
    rw [if_neg (by decide)]
    simp only [Option.some.injEq, Prod.mk.injEq] at h
    obtain ⟨-, rfl⟩ := h
    rw [take_takeWhile] at helse
    simp only [wordTerminal_begins hm helse]
  next => simp only [htarget, hoperand, ne_eq, reduceCtorEq]

/-! ## Layouts -/

theorem Source.Trailing.below {cs : List Char} (h : Trailing cs) : Gap (cs ++ ['\n']) := by
  cases h with
  | gap h => exact h.append (.blank (by decide) .nil)
  | comment h ht =>
    rw [List.append_assoc]
    exact h.append (.comment ht .nil)

theorem Source.Trailing.behind {gap cs : List Char} (hg : Gap gap) (h : Trailing cs) :
    Trailing (gap ++ cs) := by
  cases h with
  | gap h => exact .gap (hg.append h)
  | comment h ht =>
    rw [← List.append_assoc]
    exact .comment (hg.append h) ht

theorem written_append (ps qs : List Piece) : written (ps ++ qs) = written ps ++ written qs := by
  rw [written, List.flatMap_append]
  rfl

/-- Pieces and the text behind them, with one more gap in front. -/
def bridge (gap : List Char) : List Piece → List Char → List Piece × List Char
  | [], last => ([], gap ++ last)
  | x :: ps, last => (⟨gap ++ x.gap, x.terminal, x.text⟩ :: ps, last)

theorem written_bridge (gap : List Char) (ps : List Piece) (last : List Char) :
    written (bridge gap ps last).1 ++ (bridge gap ps last).2 = gap ++ (written ps ++ last) := by
  cases ps with
  | nil => rfl
  | cons x ps => rw [bridge, written_cons, written_cons, List.append_assoc]

theorem placed_bridge (gap : List Char) (p : Position) (ps : List Piece) (last : List Char) :
    placed p (bridge gap ps last).1 = placed (p.advance gap) ps := by
  cases ps with
  | nil => rfl
  | cons x ps =>
    rw [bridge, placed, placed]
    simp only [Position.advance_append]

theorem scans_bridge {m : Mode} (hm : m ∈ begins) {gap : List Char} (hg : Gap gap)
    {ps : List Piece} {last : List Char}
    (helse : m = .afterBlock → ∀ x ∈ ps.head?, x.text ≠ "else".toList)
    (h : Scans .line ps last) : Scans m (bridge gap ps last).1 (bridge gap ps last).2 := by
  cases h with
  | done h => exact .done (h.behind hg)
  | @token _ gap' tail c k ps _ hg' hr rest =>
    refine .token (hg.append hg') (recognize_begins hm (fun hblock => ?_) hr) ?_
    · rw [List.take_left]
      exact helse hblock _ rfl
    · rwa [after_begins hm]

/-- A scan goes on in the next source. -/
theorem Source.Scans.join {m : Mode} {ps qs : List Piece} {last last' : List Char}
    (h : Scans m ps last) (h' : Scans .line qs last')
    (hm : m.behind (ps.map Piece.terminal) ∈ begins)
    (helse : m.behind (ps.map Piece.terminal) = .afterBlock →
      ∀ x ∈ qs.head?, x.text ≠ "else".toList) :
    Scans m (ps ++ (bridge (last ++ ['\n']) qs last').1) (bridge (last ++ ['\n']) qs last').2 := by
  induction h with
  | done h => exact scans_bridge hm h.below helse h'
  | @token m gap tail c k ps last hg hr rest ih =>
    have htext : tail ++ (written (ps ++ (bridge (last ++ ['\n']) qs last').1) ++
        (bridge (last ++ ['\n']) qs last').2) =
        tail ++ (written ps ++ last) ++ '\n' :: (written qs ++ last') := by
      rw [written_append, List.append_assoc, written_bridge]
      simp only [List.append_assoc, List.singleton_append]
    have hbelow := recognize_below hr (written qs ++ last')
    rw [← htext] at hbelow
    exact .token hg hbelow (ih hm helse)

/-! ## Sources -/

def tokensOf (source : String) : List Token := (scan source.toList).tokens

theorem tokensOf_of_scans {source : String} {ps : List Piece} {last : List Char}
    (hsource : source.toList = written ps ++ last) (h : Scans .line ps last) :
    tokensOf source = placed .start ps := by
  rw [tokensOf, scan, hsource, scanFrom_of_scans h]

/-- If no token of a source goes over a line, no text of its pieces does. -/
theorem flat_of_scans {source : String} {ps : List Piece} {last : List Char}
    (hsource : source.toList = written ps ++ last) (h : Scans .line ps last)
    (hflat : ∀ t ∈ tokensOf source, '\n' ∉ t.text) : ∀ x ∈ ps, '\n' ∉ x.text := by
  rw [tokensOf_of_scans hsource h] at hflat
  exact forall_placed (P := fun _ text => '\n' ∉ text) hflat

def endsBlock (source : String) : Bool :=
  (tokensOf source).getLast?.any (·.terminal = .rightBrace)

def beginsElse (source : String) : Bool :=
  (tokensOf source).head?.any (·.text = "else".toList)

theorem after_eq_afterBlock {m : Mode} {k : Terminal} (h : m.after k = .afterBlock) :
    k = .rightBrace := by
  cases k with
  | rightBrace => rfl
  | identifier =>
    rw [Mode.after] at h
    split at h <;> cases h
  | _ => cases h

/-- Behind a block, the last token closed it. -/
theorem getLast_of_behind {ks : List Terminal} (h : Mode.line.behind ks = .afterBlock) :
    ks.getLast? = some .rightBrace := by
  rcases List.eq_nil_or_concat ks with rfl | ⟨ls, k, rfl⟩
  · cases h
  · rw [List.concat_eq_append] at h ⊢
    rw [Mode.behind_append] at h
    rw [List.getLast?_append, List.getLast?_singleton, after_eq_afterBlock h]
    rfl

theorem lines_of_derives {ts : List Token} {n : Node} (h : Derives (.rule .program) ts [n]) :
    Derives (.many (.rule .line)) ts n.kids := by
  generalize hns : [n] = ns at h
  cases h with
  | rule mem h =>
    obtain rfl := List.mem_singleton.mp mem
    obtain rfl := List.singleton_inj.mp hns
    exact h

/-- Two sources, each of them read, read as the statements of both if they are put below one another
and the second does not begin with what could be taken for an else branch of the first. -/
theorem read_join {a b : String} {p q : Program} (ha : read a = .ok p) (hb : read b = .ok q)
    (hsep : ¬ (endsBlock a = true ∧ beginsElse b = true)) :
    ∃ r, read (a ++ "\n" ++ b) = .ok r ∧
      r.toNode.kids = p.toNode.kids ++ q.toNode.kids.map (Node.moved (.below a)) ∧
      tokensOf (a ++ "\n" ++ b) = tokensOf a ++ (tokensOf b).map (Token.moved (.below a)) := by
  obtain ⟨ps, last, hsource, hscans, hd⟩ := pieces_of_read ha
  obtain ⟨qs, last', hsource', hscans', hd'⟩ := pieces_of_read hb
  have htokens := tokensOf_of_scans hsource hscans
  have htokens' := tokensOf_of_scans hsource' hscans'
  have hmode := (leads_of_derives hd .line (by decide)).2
  rw [terminals_placed] at hmode
  have helse : Mode.line.behind (ps.map Piece.terminal) = .afterBlock →
      ∀ x ∈ qs.head?, x.text ≠ "else".toList := by
    intro hblock x hx htext
    refine hsep ⟨?_, ?_⟩
    · have hlast := getLast_of_behind hblock
      rw [← terminals_placed .start, terminals, List.getLast?_map] at hlast
      obtain ⟨t, ht, hk⟩ := Option.map_eq_some_iff.mp hlast
      rw [endsBlock, htokens, ht]
      simp [hk]
    · obtain ⟨qs, rfl⟩ := List.head?_eq_some_iff.mp hx
      rw [beginsElse, htokens', placed]
      simp [htext]
  have hjoin := hscans.join hscans' hmode helse
  have htext : (a ++ "\n" ++ b).toList =
      written (ps ++ (bridge (last ++ ['\n']) qs last').1) ++
        (bridge (last ++ ['\n']) qs last').2 := by
    have hwritten := written_bridge (last ++ ['\n']) qs last'
    have hnewline : "\n".toList = ['\n'] := rfl
    rw [written_append, List.append_assoc, hwritten, String.toList_append, String.toList_append,
      hnewline, hsource, hsource']
    simp only [List.append_assoc]
  have hplaced : placed .start (ps ++ (bridge (last ++ ['\n']) qs last').1) =
      placed .start ps ++ (placed .start qs).map (Token.moved (.below a)) := by
    rw [placed_append, placed_bridge, ← Position.advance_append, ← List.append_assoc, ← hsource,
      placed_below]
  have hlines := (lines_of_derives hd).append_many ((lines_of_derives hd').moved (.below a))
  have hprogram := Derives.rule (r := .program) (List.mem_singleton_self _) hlines
  rw [← hplaced] at hprogram
  obtain ⟨r, hread, hr⟩ := read_of_derives htext hjoin hprogram
  refine ⟨r, hread, ?_, ?_⟩
  · rw [hr]
    rfl
  · rw [htokens, htokens', ← hplaced, tokensOf_of_scans htext hjoin]

def spoken (sources : List String) : List String := sources.filter fun s => !(tokensOf s).isEmpty

/-- No source ends with a block while the next one that has a token begins with `else`. -/
def Separate (sources : List String) : Prop :=
  (spoken sources).IsChain fun s t => ¬ (endsBlock s = true ∧ beginsElse t = true)

/-- The statements of sources below one another. -/
def stacked : List String → List Program → List Node
  | [], _ => []
  | _ :: _, [] => []
  | s :: ss, p :: ps => p.toNode.kids ++ (stacked ss ps).map (Node.moved (.below s))

theorem tokensOf_empty : tokensOf "" = [] := by
  rw [tokensOf, scan, scanFrom_end rfl]

theorem spoken_cons_of_nil {s : String} (h : tokensOf s = []) (ss : List String) :
    spoken (s :: ss) = spoken ss := by
  rw [spoken, List.filter_cons, h]
  rfl

theorem spoken_cons_of_ne {s : String} (h : tokensOf s ≠ []) (ss : List String) :
    spoken (s :: ss) = s :: spoken ss := by
  rw [spoken, List.filter_cons, if_pos]
  · rfl
  · simpa using h

theorem ne_nil_of_endsBlock {s : String} (h : endsBlock s = true) : tokensOf s ≠ [] := by
  intro ht
  rw [endsBlock, ht] at h
  cases h

theorem beginsElse_of_nil {s : String} (h : tokensOf s = []) : beginsElse s = false := by
  rw [beginsElse, h]
  rfl

theorem Separate.tail {s : String} {ss : List String} (h : Separate (s :: ss)) : Separate ss := by
  by_cases ht : tokensOf s = []
  · rwa [Separate, spoken_cons_of_nil ht] at h
  · rw [Separate, spoken_cons_of_ne ht] at h
    exact h.tail

theorem Separate.head {s : String} {ss : List String} (h : Separate (s :: ss))
    (hends : endsBlock s = true) : (spoken ss).head?.any beginsElse = false := by
  rw [Separate, spoken_cons_of_ne (ne_nil_of_endsBlock hends), List.isChain_cons] at h
  cases hs : (spoken ss).head? with
  | none => rfl
  | some t => simpa [hends] using h.1 t hs

/-- Sources below one another, each of them read, read as the statements of all. -/
theorem read_joined {sources : List String} {programs : List Program}
    (h : List.Forall₂ (fun s p => read s = .ok p) sources programs) (hsep : Separate sources) :
    ∃ program, read (String.intercalate "\n" sources) = .ok program ∧
      program.toNode.kids = stacked sources programs ∧
      beginsElse (String.intercalate "\n" sources) = (spoken sources).head?.any beginsElse := by
  induction h with
  | nil =>
    rw [String.intercalate_nil]
    refine ⟨⟨[], none⟩, ?_, rfl, beginsElse_of_nil tokensOf_empty⟩
    refine read_eq_ok.mpr ?_
    rw [scan, scanFrom_end rfl]
    exact ⟨rfl, Progress.start, rfl, rfl⟩
  | @cons s p ss ps hread hrest ih =>
    cases hrest with
    | nil =>
      rw [String.intercalate_singleton]
      refine ⟨p, hread, ?_, ?_⟩
      · rw [stacked, stacked, List.map_nil, List.append_nil]
      · by_cases ht : tokensOf s = []
        · rw [spoken_cons_of_nil ht, beginsElse_of_nil ht]
          rfl
        · rw [spoken_cons_of_ne ht]
          rfl
    | @cons s' p' ss ps hread' hrest =>
      obtain ⟨q, hq, hkids, hbegins⟩ := ih hsep.tail
      have hhead : ¬ (endsBlock s = true ∧
          beginsElse (String.intercalate "\n" (s' :: ss)) = true) := by
        rintro ⟨hends, helse⟩
        rw [hbegins, hsep.head hends] at helse
        cases helse
      obtain ⟨r, hr, hrkids, htokens⟩ := read_join hread hq hhead
      rw [String.intercalate_cons_cons]
      refine ⟨r, hr, ?_, ?_⟩
      · rw [hrkids, hkids, ← stacked]
      · rw [beginsElse, htokens]
        by_cases ht : tokensOf s = []
        · rw [spoken_cons_of_nil ht, ht, ← hbegins, List.nil_append, List.head?_map,
            Option.any_map]
          rfl
        · obtain ⟨t, ts, hts⟩ := List.exists_cons_of_ne_nil ht
          rw [spoken_cons_of_ne ht, List.head?_cons, Option.any_some, beginsElse, hts]
          rfl

end Scriptlet
