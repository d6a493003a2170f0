import Scriptlet.Proofs.Joining
/-!
# Whole words

A name or keyword takes up all the characters of its word, in every mode but one: behind `else` no
name can stand, and there a keyword is read from the front of whatever word comes. Main statement:
in a source that is read, a name or keyword that does not stand behind `else` is a whole word
(`whole_of_read`).
-/

namespace Scriptlet.Source

/-! ## Recognising words -/

theorem keywords_isLettered (m : Mode) : ∀ x ∈ m.keywords, x.2.isLettered = true := by
  cases m <;> decide

theorem lettered_texts (k : Terminal) (hk : k.isLettered = true) : ∀ w ∈ k.texts,
    (w.toList.head?.all isWordStart && w.toList.all isWordChar) = true := by
  cases k <;> first | exact absurd hk (by decide) | decide

/-- Names and keywords are words. -/
theorem word_of_spells {k : Terminal} {c : Char} {tail : List Char} (hk : k.isLettered = true)
    (hs : k.Spells (c :: tail)) :
    isWordStart c = true ∧ ∀ d ∈ c :: tail, isWordChar d = true := by
  by_cases hname : k = .identifier
  · subst hname
    obtain ⟨d, ds, hcons, hd, hds⟩ := hs
    cases hcons
    exact ⟨hd, List.forall_mem_cons.mpr ⟨isWordChar_of_isWordStart hd, hds⟩⟩
  · have htext : c :: tail ∈ k.texts.map String.toList := by
      cases k <;> first | exact absurd rfl hname | exact absurd hk (by decide) | exact hs
    obtain ⟨w, hw, htext⟩ := List.mem_map.mp htext
    have hword := lettered_texts k hk w hw
    rw [htext, Bool.and_eq_true, List.all_eq_true] at hword
    exact hword

/-- Words and numbers begin with a character of a word. -/
theorem head_of_word {k : Terminal} {c : Char} {tail : List Char} (hk : k.isWord = true)
    (hs : k.Spells (c :: tail)) : isWordChar c = true := by
  by_contra hc
  have hdigit : c.isDigit = false := not_isDigit_of_not_isWordChar (by simpa using hc)
  by_cases hlettered : k.isLettered = true
  · exact hc ((word_of_spells hlettered hs).2 c List.mem_cons_self)
  · cases k with
    | integer => exact absurd (hs.2 c List.mem_cons_self) (by simp [hdigit])
    | float =>
      obtain ⟨whole, part, hcons, ⟨hne, hwhole⟩, -⟩ := hs
      obtain ⟨d, ds, rfl⟩ := List.exists_cons_of_ne_nil hne
      obtain ⟨rfl, -⟩ := List.cons.inj hcons
      exact absurd (hwhole c List.mem_cons_self) (by simp [hdigit])
    | _ => first | exact hlettered rfl | exact absurd hk (by decide)

section

variable {m : Mode} {c : Char} {cs : List Char} {k : Terminal} {n : Nat}

theorem isWordStart_of_recognize (h : recognize m c cs = some (k, n)) (hk : k.isLettered = true) :
    isWordStart c = true :=
  (word_of_spells hk (recognize_spells h)).1

/-- A name or keyword is read to the end of its word, unless it has to be an else branch. -/
theorem word_of_recognize (h : recognize m c cs = some (k, n)) (hk : k.isLettered = true)
    (hm : m ≠ .branch) :
    k = wordTerminal m (c :: cs.takeWhile isWordChar) ∧ n = (cs.takeWhile isWordChar).length := by
  rw [recognize, if_pos (isWordStart_of_recognize h hk), if_neg hm] at h
  cases h
  exact ⟨rfl, rfl⟩

/-- A name or keyword is the whole word that begins there, unless it has to be an else branch. -/
theorem whole_of_recognize {tail rest : List Char}
    (h : recognize m c (tail ++ rest) = some (k, tail.length)) (hk : k.isLettered = true)
    (hm : m ≠ .branch) :
    (tail ++ rest).takeWhile isWordChar = tail ∧ ∀ d ∈ rest.head?, isWordChar d = false := by
  have hlength := (word_of_recognize h hk hm).2
  have htake := take_takeWhile isWordChar (tail ++ rest)
  have hdrop := drop_takeWhile isWordChar (tail ++ rest)
  rw [← hlength, List.take_left] at htake
  rw [← hlength, List.drop_left] at hdrop
  refine ⟨htake.symm, fun d hd => ?_⟩
  obtain ⟨ds, rfl⟩ := List.head?_eq_some_iff.mp hd
  have hstop := List.head?_dropWhile_not isWordChar (tail ++ d :: ds)
  rwa [← hdrop] at hstop

/-- A word goes on in a word that stands directly behind it. -/
theorem recognize_longer {d : Char} {tail : List Char} (hm : m ≠ .branch)
    (hc : isWordStart c = true) (ht : ∀ e ∈ tail, isWordChar e = true)
    (hd : isWordChar d = true) (rest : List Char) :
    let word := tail ++ d :: rest.takeWhile isWordChar
    recognize m c (tail ++ d :: rest) = some (wordTerminal m (c :: word), word.length) ∧
      (tail ++ d :: rest).take word.length = word := by
  intro word
  have htake : (tail ++ d :: rest).takeWhile isWordChar = word := by
    rw [List.takeWhile_append_of_pos ht, List.takeWhile_cons, if_pos hd]
  refine ⟨?_, ?_⟩
  · rw [recognize, if_pos hc, if_neg hm, htake]
  · rw [← htake, take_takeWhile]

/-- An else branch begins with a keyword or is a block. -/
theorem keyword_of_branch (h : recognize .branch c cs = some (k, n)) (hk : k.isLettered = true) :
    k ∈ Mode.branch.keywords.map Prod.snd := by
  rw [recognize, if_pos (isWordStart_of_recognize h hk), if_pos rfl, leadingKeyword?,
    Option.map_eq_some_iff] at h
  obtain ⟨x, hx, heq⟩ := h
  cases heq
  exact List.mem_map_of_mem (List.mem_of_find?_eq_some hx)

/-- A name or keyword is the front of the word that begins there. -/
theorem prefix_of_recognize (h : recognize m c cs = some (k, n)) (hk : k.isLettered = true) :
    c :: cs.take n <+: (c :: cs).takeWhile isWordChar := by
  have hword := (word_of_spells hk (recognize_spells h)).2
  have hsplit : c :: cs = (c :: cs.take n) ++ cs.drop n := by
    rw [List.cons_append, List.take_append_drop]
  rw [hsplit, List.takeWhile_append_of_pos hword]
  exact List.prefix_append _ _

end

/-! ## Words of a source -/

/-- A scan goes on behind some of its pieces. -/
theorem Scans.of_append {m : Mode} {ps qs : List Piece} {last : List Char}
    (h : Scans m (ps ++ qs) last) : Scans (m.behind (ps.map Piece.terminal)) qs last := by
  induction ps generalizing m with
  | nil => exact h
  | cons x ps ih =>
    cases h with
    | token _ _ rest => exact ih rest

theorem after_eq_branch {m : Mode} {k : Terminal} : m.after k = .branch ↔ k = .elseWord := by
  cases k <;> cases m <;> decide

/-- An else branch has to follow just behind `else`. -/
theorem behind_eq_branch {ks : List Terminal} :
    Mode.line.behind ks = .branch ↔ ks.getLast? = some .elseWord := by
  rcases List.eq_nil_or_concat ks with rfl | ⟨ls, k, rfl⟩
  · exact ⟨nofun, nofun⟩
  · rw [List.concat_eq_append, Mode.behind_append, List.getLast?_concat, Option.some.injEq]
    exact after_eq_branch

def EndsElse (ts : List Token) : Prop := (terminals ts).getLast? = some .elseWord

instance (ts : List Token) : Decidable (EndsElse ts) := inferInstanceAs (Decidable (_ = _))

/-- The word of a source that begins where a token begins. -/
def Token.wordIn (source : String) (t : Token) : List Char :=
  (source.toList.drop t.span.first.offset).takeWhile isWordChar

def Token.nextIn? (source : String) (t : Token) : Option Char :=
  source.toList[t.span.last.offset]?

/-- A token of a source, with the mode it was recognised in. -/
theorem recognize_of_mem {source : String} {program : Program} (hread : read source = .ok program)
    {before after : List Token} {t : Token} (htokens : tokensOf source = before ++ t :: after) :
    ∃ c tail rest, t.text = c :: tail ∧
      source.toList.drop t.span.first.offset = c :: (tail ++ rest) ∧
      source.toList.drop t.span.last.offset = rest ∧
      recognize (Mode.line.behind (terminals before)) c (tail ++ rest) =
        some (t.terminal, tail.length) := by
  obtain ⟨ps, last, hsource, hscans, -⟩ := pieces_of_read hread
  rw [tokensOf_of_scans hsource hscans] at htokens
  obtain ⟨qs, x, rs, rfl, rfl, ht⟩ := exists_of_placed htokens
  obtain ⟨rfl, -⟩ := List.cons.inj ht
  have hx := hscans.of_append
  rw [terminals_placed]
  cases hx with
  | @token _ gap tail c k _ _ _ hr _ =>
    have htext : source.toList =
        (written qs ++ gap) ++ ((c :: tail) ++ (written rs ++ last)) := by
      rw [hsource, written_append, List.append_assoc, written_cons, List.append_assoc]
    have hfirst : ((Position.start.advance (written qs)).advance gap).offset =
        (written qs ++ gap).length := by
      rw [← Position.advance_append, advance_start]
      rfl
    refine ⟨c, tail, written rs ++ last, rfl, ?_, ?_, hr⟩
    · change source.toList.drop ((Position.start.advance (written qs)).advance gap).offset = _
      rw [hfirst, htext, List.drop_left]
      rfl
    · change source.toList.drop
        (((Position.start.advance (written qs)).advance gap).advance (c :: tail)).offset = _
      rw [Position.advance_offset, hfirst, ← List.length_append, htext, ← List.append_assoc,
        List.drop_left]

/-- A name or keyword of a source that is read is the whole word that begins there, and no character
of a word follows it, unless it stands behind `else`. There it is a keyword that begins a
conditional, and the word may go on. -/
theorem whole_of_read {source : String} {program : Program} (hread : read source = .ok program)
    {before after : List Token} {t : Token} (htokens : tokensOf source = before ++ t :: after)
    (ht : t.terminal.isLettered = true) :
    (¬ EndsElse before →
        t.text = t.wordIn source ∧ ∀ c ∈ t.nextIn? source, isWordChar c = false) ∧
      (EndsElse before → t.terminal ∈ [.ifWord, .unlessWord, .whileWord, .untilWord] ∧
        t.text <+: t.wordIn source) := by
  obtain ⟨c, tail, rest, htext, hfirst, hlast, hr⟩ := recognize_of_mem hread htokens
  have hword := isWordChar_of_isWordStart (isWordStart_of_recognize hr ht)
  refine ⟨fun helse => ?_, fun helse => ⟨?_, ?_⟩⟩
  · obtain ⟨htail, hnext⟩ := whole_of_recognize hr ht (mt behind_eq_branch.mp helse)
    rw [Token.wordIn, hfirst, List.takeWhile_cons, if_pos hword, htail, Token.nextIn?,
      ← List.head?_drop, hlast]
    exact ⟨htext, hnext⟩
  · rw [behind_eq_branch.mpr helse] at hr
    exact keyword_of_branch hr ht
  · have hprefix := prefix_of_recognize hr ht
    rwa [List.take_left, ← hfirst, ← htext] at hprefix

/-- A name that begins like a keyword, where a keyword could stand. -/
theorem whole_of_read_iffy :
    let source := "x = 1 iffy = 2"
    ∃ program before t after, read source = .ok program ∧
      tokensOf source = before ++ t :: after ∧ t.terminal.isLettered = true ∧
      ¬ EndsElse before ∧ t.wordIn source = "iffy".toList ∧ t.text = t.wordIn source ∧
      ∀ c ∈ t.nextIn? source, isWordChar c = false := by
  intro source
  obtain ⟨program, hread⟩ : ∃ program, read source = .ok program :=
    exists_of_isOk (by decide +kernel)
  let before := (tokensOf source).take 3
  let t : Token := ⟨.identifier, "iffy".toList, ⟨6, 1, 7⟩, ⟨10, 1, 11⟩⟩
  have htokens : tokensOf source = before ++ t :: (tokensOf source).drop 4 := by decide +kernel
  have helse : ¬ EndsElse before := by decide +kernel
  have hword : t.wordIn source = "iffy".toList := by decide +kernel
  obtain ⟨htext, hnext⟩ := (whole_of_read hread htokens rfl).1 helse
  exact ⟨program, before, t, _, hread, htokens, rfl, helse, hword, htext, hnext⟩

/-- Behind `else`, a longer word is split into a keyword and a rest. -/
theorem split_behind_else :
    let source := "if true \x7b\x7d else ifx < 1 \x7b\x7d"
    ∃ program before t after, read source = .ok program ∧
      tokensOf source = before ++ t :: after ∧ t.terminal = .ifWord ∧
      t.wordIn source = "ifx".toList ∧ t.text = "if".toList ∧ t.nextIn? source = some 'x' := by
  intro source
  obtain ⟨program, hread⟩ : ∃ program, read source = .ok program :=
    exists_of_isOk (by decide +kernel)
  let t : Token := ⟨.ifWord, "if".toList, ⟨16, 1, 17⟩, ⟨18, 1, 19⟩⟩
  have htokens : tokensOf source = (tokensOf source).take 5 ++ t :: (tokensOf source).drop 6 := by
    decide +kernel
  exact ⟨program, _, t, _, hread, htokens, rfl, by decide +kernel, rfl, by decide +kernel⟩

end Scriptlet.Source
