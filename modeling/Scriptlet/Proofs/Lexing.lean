import Mathlib.Data.List.Chain
import Scriptlet.Proofs.Layout
/-!
# Lexing what derives

The tokens of a derivation, written one behind the other, are told apart again. A derivation meets
only terminals that its mode expects, which is checked once for every production
(`productions_modes`), and a text that its mode expects is recognised as long as what follows does
not lengthen it. Main statement: pieces that derive, with a gap between any two words, are scanned
as they were written (`scans_of_named`, and `scans_of_apart` for names that are no keywords).
-/

namespace Scriptlet.Source

/-! ## The modes of a derivation -/

namespace Mode

def expects : Mode → Terminal → Bool
  | .line, k => k ∈ [.identifier, .rightBrace, .ifWord, .unlessWord, .whileWord, .untilWord]
  | .target, k => k ∈ [.assign, .leftParen]
  | .operand, k =>
    k ∈ [.identifier, .integer, .float, .string, .trueWord, .falseWord, .nullWord, .negation,
      .leftParen, .rightParen]
  | .afterOperand, k =>
    k ∈ [.identifier, .ifWord, .unlessWord, .whileWord, .untilWord, .compareOp, .addOp, .mulOp,
      .semicolon, .comma, .leftParen, .rightParen, .leftBrace, .rightBrace]
  | .afterBlock, k =>
    k ∈ [.identifier, .elseWord, .rightBrace, .ifWord, .unlessWord, .whileWord, .untilWord]
  | .branch, k => k ∈ [.leftBrace, .ifWord, .unlessWord, .whileWord, .untilWord]

/-- The mode behind some terminals. -/
def behind (m : Mode) (ks : List Terminal) : Mode := ks.foldl after m

def Meets : Mode → List Terminal → Prop
  | _, [] => True
  | m, k :: ks => m.expects k = true ∧ (m.after k).Meets ks

theorem behind_append (m : Mode) (ks ls : List Terminal) :
    m.behind (ks ++ ls) = (m.behind ks).behind ls :=
  List.foldl_append

theorem Meets.append {m : Mode} {ks ls : List Terminal} (h : m.Meets ks)
    (h' : (m.behind ks).Meets ls) : m.Meets (ks ++ ls) := by
  induction ks generalizing m with
  | nil => exact h'
  | cons k ks ih => exact ⟨h.1, ih h.2 h'⟩

theorem Meets.of_append {m : Mode} {ks ls : List Terminal} (h : m.Meets (ks ++ ls)) :
    (m.behind ks).Meets ls := by
  induction ks generalizing m with
  | nil => exact h
  | cons k ks ih => exact ih h.2

end Mode

/-- The modes in which a rule may be begun. -/
def Rule.before : Rule → List Mode
  | .program | .line | .statement | .assignment => [.line, .afterOperand, .afterBlock]
  | .functionCall => [.line, .afterOperand, .afterBlock, .operand]
  | .ifBlock | .whileBlock => [.line, .afterOperand, .afterBlock, .branch]
  | .block => [.afterOperand, .branch]
  | .elseBlock => [.branch]
  | .expression | .sum | .product | .atom | .constant => [.operand]

/-- The modes that a rule may leave behind. -/
def Rule.behind : Rule → List Mode
  | .program | .line => [.line, .afterOperand, .afterBlock]
  | .statement => [.line, .afterOperand]
  | .block | .elseBlock | .ifBlock | .whileBlock => [.afterBlock]
  | .assignment | .functionCall | .expression | .sum | .product | .atom | .constant =>
    [.afterOperand]

/-- The modes behind a phrase that is begun in one of some modes, if all it meets is expected. -/
def Phrase.modes : Phrase → List Mode → Option (List Mode)
  | .terminal k, ms => if ms.all (·.expects k) then some (ms.map (·.after k)) else none
  | .rule r, ms => if ms.all (· ∈ r.before) then some r.behind else none
  | .empty, ms => some ms
  | .seq a b, ms => (a.modes ms).bind b.modes
  | .either a b, ms => (a.modes ms).bind fun xs => (b.modes ms).map (xs ++ ·)
  | .many a, ms =>
    (a.modes ms).bind fun xs => (a.modes (ms ++ xs)).bind fun ys =>
      if ys.all (· ∈ ms ++ xs) then some (ms ++ xs) else none

/-- Every production keeps to the modes of its rule. -/
theorem productions_modes (r : Rule) : ∀ p ∈ r.productions,
    (p.phrase.modes r.before).any (·.all (· ∈ r.behind)) = true := by
  cases r <;> decide

def terminals (ts : List Token) : List Terminal := ts.map Token.terminal

/-- Tokens that are expected from any of some modes on, and lead to one of others. -/
def Leads (ms : List Mode) (ts : List Token) (ms' : List Mode) : Prop :=
  ∀ m ∈ ms, m.Meets (terminals ts) ∧ m.behind (terminals ts) ∈ ms'

theorem Leads.append {ms xs ys : List Mode} {ts us : List Token} (h : Leads ms ts xs)
    (h' : Leads xs us ys) : Leads ms (ts ++ us) ys := by
  intro m hm
  obtain ⟨hmeets, hx⟩ := h m hm
  obtain ⟨hmeets', hy⟩ := h' _ hx
  rw [terminals, List.map_append, Mode.behind_append]
  exact ⟨hmeets.append hmeets', hy⟩

theorem Leads.mono {ms xs ys : List Mode} {ts : List Token} (h : Leads ms ts xs)
    (hsub : ∀ m ∈ xs, m ∈ ys) : Leads ms ts ys :=
  fun m hm => ⟨(h m hm).1, hsub _ (h m hm).2⟩

theorem leads_of_modes {a : Phrase} {ts : List Token} {ns : List Node}
    (h : a.Holds (fun r ts _ => Leads r.before ts r.behind) ts ns) {ms xs : List Mode}
    (hm : a.modes ms = some xs) : Leads ms ts xs := by
  induction a generalizing ts ns ms xs with
  | terminal k =>
    obtain ⟨t, ht, _, rfl, _⟩ := h
    rw [Phrase.modes] at hm
    split at hm
    · next hall =>
      cases hm
      subst ht
      intro m hmem
      exact ⟨⟨List.all_eq_true.mp hall m hmem, trivial⟩, List.mem_map_of_mem hmem⟩
    · cases hm
  | rule r =>
    rw [Phrase.modes] at hm
    split at hm
    · next hall =>
      cases hm
      intro m hmem
      exact h m (by simpa using List.all_eq_true.mp hall m hmem)
    · cases hm
  | empty =>
    obtain ⟨rfl, _⟩ := h
    cases hm
    exact fun m hmem => ⟨trivial, hmem⟩
  | seq a b iha ihb =>
    obtain ⟨ts, ns, us, vs, ha, hb, rfl, _⟩ := h
    obtain ⟨ys, hy, hx⟩ := Option.bind_eq_some_iff.mp hm
    exact (iha ha hy).append (ihb hb hx)
  | either a b iha ihb =>
    obtain ⟨ys, hy, hx⟩ := Option.bind_eq_some_iff.mp hm
    obtain ⟨zs, hz, rfl⟩ := Option.map_eq_some_iff.mp hx
    rcases h with h | h
    · exact (iha h hy).mono fun m hmem => List.mem_append_left zs hmem
    · exact (ihb h hz).mono fun m hmem => List.mem_append_right ys hmem
  | many a ih =>
    obtain ⟨ys, hy, hx⟩ := Option.bind_eq_some_iff.mp hm
    obtain ⟨zs, hz, hx⟩ := Option.bind_eq_some_iff.mp hx
    split at hx
    · next hall =>
      cases hx
      -- The modes at hand and those behind one piece are left by no piece.
      have hround : ∀ ts ns, a.Holds (fun r ts _ => Leads r.before ts r.behind) ts ns →
          Leads (ms ++ ys) ts (ms ++ ys) := fun ts ns h =>
        (ih h hz).mono fun m hmem => by simpa using List.all_eq_true.mp hall m hmem
      have hrounds : Leads (ms ++ ys) ts (ms ++ ys) := by
        clear hm hy
        change Repeats _ ts ns at h
        induction h with
        | none => exact fun m hmem => ⟨trivial, hmem⟩
        | more h _ ihrest => exact (hround _ _ h).append ihrest
      exact fun m hmem => hrounds m (List.mem_append_left ys hmem)
    · cases hx

/-- A derivation of a rule meets only what is expected. -/
theorem leads_of_derives {r : Rule} {ts : List Token} {ns : List Node}
    (h : Derives (.rule r) ts ns) : Leads r.before ts r.behind := by
  refine h.holds (M := fun r ts _ => Leads r.before ts r.behind) fun r p mem ts ns hp => ?_
  have hcheck := productions_modes r p mem
  cases hm : p.phrase.modes r.before with
  | none => rw [hm] at hcheck; cases hcheck
  | some xs =>
    rw [hm] at hcheck
    exact (leads_of_modes hp hm).mono fun m hmem => by
      simpa using List.all_eq_true.mp hcheck m hmem

/-! ## Texts that are recognised -/

/-- The keywords, in whatever mode they are told from names. -/
def reserved : List String :=
  ["true", "false", "null", "if", "unless", "while", "until", "else"]

/-- Names, numbers and keywords: their tokens may not touch. -/
def Terminal.isWord : Terminal → Bool
  | .identifier | .integer | .float | .trueWord | .falseWord | .nullWord | .ifWord | .unlessWord
  | .whileWord | .untilWord | .elseWord => true
  | _ => false

def Terminal.isLettered (k : Terminal) : Bool := k.isWord && k ≠ .integer && k ≠ .float

/-- What follows a token does not lengthen it, wherever it stands. -/
def Terminal.Stops (k : Terminal) (rest : List Char) : Prop :=
  ∀ c ∈ rest.head?, (k.isWord = true → isWordChar c = false ∧ c ≠ '.') ∧ (k = .compareOp → c ≠ '=')

/-- What follows a token does not lengthen it where it stands: a number may be followed by a name,
and in an else branch a keyword by anything. -/
structure Terminal.Ends (m : Mode) (k : Terminal) (rest : List Char) : Prop where
  word : k.isLettered = true → m ≠ .branch → ∀ c ∈ rest.head?, isWordChar c = false
  number : k = .integer ∨ k = .float → ∀ c ∈ rest.head?, c.isDigit = false ∧ c ≠ '.'
  operator : k = .compareOp → ∀ c ∈ rest.head?, c ≠ '='

theorem takeWhile_stop {p : Char → Bool} {cs rest : List Char} (h : ∀ c ∈ cs, p c = true)
    (hrest : ∀ c ∈ rest.head?, p c = false) : (cs ++ rest).takeWhile p = cs := by
  rw [List.takeWhile_append_of_pos h]
  cases rest with
  | nil => simp
  | cons c rest => rw [List.takeWhile_cons, hrest c rfl]; simp

theorem isWordChar_of_isDigit {c : Char} (h : c.isDigit = true) : isWordChar c = true := by
  simp only [isWordChar, Char.isAlphanum, Bool.or_eq_true]
  exact .inl (.inr h)

theorem isWordChar_of_isWordStart {c : Char} (h : isWordStart c = true) : isWordChar c = true := by
  simp only [isWordStart, isWordChar, Char.isAlphanum, Bool.or_eq_true] at h ⊢
  rcases h with h | h
  · exact .inl (.inl h)
  · exact .inr h

/-- What holds of the characters of words, of the point and of the texts of a terminal that has only
a few holds of each character of the terminal's texts, strings apart. -/
theorem forall_of_spells {P : Char → Bool} {k : Terminal} {cs : List Char} (hs : k.Spells cs)
    (hk : k ≠ .string) (hword : ∀ c, isWordChar c = true → P c = true) (hpoint : P '.' = true)
    (htexts : ∀ w ∈ k.texts, w.toList.all P = true) : ∀ c ∈ cs, P c = true := by
  have hdigits : ∀ {ds}, IsDigits ds → ∀ c ∈ ds, P c = true := fun hds c hc =>
    hword c (isWordChar_of_isDigit (hds.2 c hc))
  cases k with
  | string => exact absurd rfl hk
  | identifier =>
    obtain ⟨d, tail, rfl, hd, htail⟩ := hs
    exact List.forall_mem_cons.mpr ⟨hword d (isWordChar_of_isWordStart hd), fun c hc =>
      hword c (htail c hc)⟩
  | integer => exact hdigits hs
  | float =>
    obtain ⟨whole, part, rfl, hwhole, hpart⟩ := hs
    refine List.forall_mem_append.mpr ⟨hdigits hwhole, ?_⟩
    exact List.forall_mem_cons.mpr ⟨hpoint, hdigits hpart⟩
  | _ =>
    obtain ⟨w, hw, rfl⟩ := List.mem_map.mp hs
    exact List.all_eq_true.mp (htexts w hw)

theorem not_isDigit_of_not_isWordChar {c : Char} (h : isWordChar c = false) :
    c.isDigit = false := by
  cases hd : c.isDigit with
  | false => rfl
  | true =>
    rw [isWordChar_of_isDigit hd] at h
    cases h

theorem isWord_of_isLettered {k : Terminal} (h : k.isLettered = true) : k.isWord = true := by
  rw [Terminal.isLettered, Bool.and_eq_true, Bool.and_eq_true] at h
  exact h.1.1

theorem Terminal.Stops.ends {k : Terminal} {rest : List Char} (h : k.Stops rest) (m : Mode) :
    k.Ends m rest where
  word hk _ c hc := ((h c hc).1 (isWord_of_isLettered hk)).1
  number hk c hc := by
    obtain ⟨hword, hpoint⟩ := (h c hc).1 (by rcases hk with rfl | rfl <;> rfl)
    exact ⟨not_isDigit_of_not_isWordChar hword, hpoint⟩
  operator hk c hc := (h c hc).2 hk

theorem not_isWordStart_of_isDigit {c : Char} (h : c.isDigit = true) : isWordStart c = false := by
  obtain ⟨hlow, hhigh⟩ := Char.isDigit_iff_toNat.mp h
  change 48 ≤ c.toNat at hlow
  change c.toNat ≤ 57 at hhigh
  have hcases : c.toNat = 48 ∨ c.toNat = 49 ∨ c.toNat = 50 ∨ c.toNat = 51 ∨ c.toNat = 52 ∨
      c.toNat = 53 ∨ c.toNat = 54 ∨ c.toNat = 55 ∨ c.toNat = 56 ∨ c.toNat = 57 := by omega
  rw [← Char.ofNat_toNat c]
  obtain h | h | h | h | h | h | h | h | h | h := hcases <;> rw [h] <;> decide

theorem keywords_reserved (m : Mode) : ∀ x ∈ m.keywords, x.1 ∈ reserved := by
  cases m <;> decide

theorem keywords_find (m : Mode) :
    ∀ x ∈ m.keywords, m.keywords.find? (·.1.toList = x.1.toList) = some x := by
  cases m <;> decide

theorem keywords_words (m : Mode) : ∀ x ∈ m.keywords,
    (x.1.toList.head?.all isWordStart && x.1.toList.tail.all isWordChar) = true := by
  cases m <;> decide

/-- In an else branch, no keyword is the front of another one. -/
theorem leadingKeyword_branch {x : String × Terminal} (hx : x ∈ Mode.branch.keywords)
    (rest : List Char) :
    leadingKeyword? .branch (x.1.toList ++ rest) = some (x.2, x.1.length - 1) := by
  simp only [Mode.keywords, Mode.keywords.conditionals, List.mem_cons, List.not_mem_nil,
    or_false] at hx
  obtain rfl | rfl | rfl | rfl := hx <;> rfl

/-- A word is taken up to the first character that cannot belong to it. -/
theorem recognize_word {m : Mode} {c : Char} {tail rest : List Char} (hm : m ≠ .branch)
    (hc : isWordStart c = true) (ht : ∀ d ∈ tail, isWordChar d = true)
    (hrest : ∀ d ∈ rest.head?, isWordChar d = false) :
    recognize m c (tail ++ rest) = some (wordTerminal m (c :: tail), tail.length) := by
  rw [recognize, if_pos hc, if_neg hm]
  simp only [takeWhile_stop ht hrest]

theorem keywords_not_identifier (m : Mode) : ∀ x ∈ m.keywords, x.2 ≠ .identifier := by
  cases m <;> decide

/-- A word is a name unless it is among the keywords of its mode. -/
theorem wordTerminal_eq_identifier {m : Mode} {word : List Char} :
    wordTerminal m word = .identifier ↔ String.ofList word ∉ m.keywords.map Prod.fst := by
  constructor
  · intro h hword
    obtain ⟨x, hx, hxword⟩ := List.mem_map.mp hword
    have hfind := keywords_find m x hx
    rw [hxword, String.toList_ofList] at hfind
    rw [wordTerminal, hfind] at h
    exact keywords_not_identifier m x hx h
  · intro hword
    have hnone : m.keywords.find? (·.1.toList = word) = none := by
      refine List.find?_eq_none.mpr fun x hx htext => hword ?_
      rw [← of_decide_eq_true htext, String.ofList_toList]
      exact List.mem_map_of_mem hx
    rw [wordTerminal, hnone]
    rfl

/-- A word that is no keyword anywhere is a name. -/
theorem wordTerminal_of_free (m : Mode) {word : List Char} (h : String.ofList word ∉ reserved) :
    wordTerminal m word = .identifier := by
  refine wordTerminal_eq_identifier.mpr fun hkeyword => h ?_
  obtain ⟨x, hx, hword⟩ := List.mem_map.mp hkeyword
  exact hword ▸ keywords_reserved m x hx

theorem recognize_identifier {m : Mode} {c : Char} {tail rest : List Char}
    (hm : m.expects .identifier = true) (hs : Terminal.identifier.Spells (c :: tail))
    (hname : wordTerminal m (c :: tail) = .identifier) (hends : Terminal.identifier.Ends m rest) :
    recognize m c (tail ++ rest) = some (.identifier, tail.length) := by
  obtain ⟨d, ds, hcons, hd, hds⟩ := hs
  cases hcons
  have hbranch : m ≠ .branch := by
    rintro rfl
    cases hm
  rw [recognize_word hbranch hd hds (hends.word rfl hbranch), hname]

theorem recognize_keyword {m : Mode} {x : String × Terminal} (hx : x ∈ m.keywords)
    (hk : x.2.isLettered = true) {c : Char} {tail rest : List Char} (hs : x.1.toList = c :: tail)
    (hends : x.2.Ends m rest) : recognize m c (tail ++ rest) = some (x.2, tail.length) := by
  have hword := keywords_words m x hx
  rw [hs, Bool.and_eq_true] at hword
  have hc : isWordStart c = true := by simpa using hword.1
  have ht : ∀ d ∈ tail, isWordChar d = true := by simpa using hword.2
  by_cases hm : m = .branch
  · subst hm
    have hlead := leadingKeyword_branch hx rest
    have hlen : x.1.length = tail.length + 1 := by
      rw [← String.length_toList, hs, List.length_cons]
    rw [hs, hlen, Nat.add_sub_cancel] at hlead
    rw [recognize, if_pos hc, if_pos rfl]
    exact hlead
  · have hterminal : wordTerminal m (c :: tail) = x.2 := by
      have hfind := keywords_find m x hx
      rw [hs] at hfind
      rw [wordTerminal, hfind]
      rfl
    rw [recognize_word hm hc ht (hends.word hk hm), hterminal]

theorem recognize_integer {m : Mode} {c : Char} {tail rest : List Char}
    (hs : Terminal.integer.Spells (c :: tail)) (hends : Terminal.integer.Ends m rest) :
    recognize m c (tail ++ rest) = some (.integer, tail.length) := by
  have hc := hs.2 c List.mem_cons_self
  have hnumber := hends.number (.inl rfl)
  have htake : (tail ++ rest).takeWhile Char.isDigit = tail :=
    takeWhile_stop (fun d hd => hs.2 d (List.mem_cons_of_mem c hd)) fun d hd => (hnumber d hd).1
  rw [recognize, not_isWordStart_of_isDigit hc, if_neg (by decide), if_pos hc]
  simp only [htake, List.drop_left]
  split
  · next part => exact absurd rfl (hnumber '.' rfl).2
  · rfl

theorem recognize_float {m : Mode} {c : Char} {tail rest : List Char}
    (hs : Terminal.float.Spells (c :: tail)) (hends : Terminal.float.Ends m rest) :
    recognize m c (tail ++ rest) = some (.float, tail.length) := by
  obtain ⟨whole, part, hcons, hwhole, hpart⟩ := hs
  cases whole with
  | nil => exact absurd rfl hwhole.1
  | cons d whole =>
    rw [List.cons_append] at hcons
    obtain ⟨rfl, rfl⟩ := List.cons.inj hcons
    have hc := hwhole.2 c List.mem_cons_self
    have htake : (whole ++ '.' :: part ++ rest).takeWhile Char.isDigit = whole := by
      rw [List.append_assoc]
      refine takeWhile_stop (fun d hd => hwhole.2 d (List.mem_cons_of_mem c hd)) fun d hd => ?_
      cases hd
      decide
    have hplaces : (part ++ rest).takeWhile Char.isDigit = part :=
      takeWhile_stop hpart.2 fun d hd => (hends.number (.inr rfl) d hd).1
    have hdrop : (whole ++ '.' :: part ++ rest).drop whole.length = '.' :: (part ++ rest) := by
      rw [List.append_assoc, List.drop_left]
      rfl
    rw [recognize, not_isWordStart_of_isDigit hc, if_neg (by decide), if_pos hc]
    simp only [htake, hdrop, hplaces, if_neg (mt List.length_eq_zero_iff.mp hpart.1)]
    rw [List.length_append, List.length_cons]
    congr 2
    omega

theorem recognize_string {m : Mode} {c : Char} {tail rest : List Char}
    (hs : Terminal.string.Spells (c :: tail)) :
    recognize m c (tail ++ rest) = some (.string, tail.length) := by
  obtain ⟨mark, inside, hmark, hinside, hcons⟩ := hs
  obtain ⟨rfl, rfl⟩ := List.cons.inj hcons
  have htake : (inside ++ [c] ++ rest).takeWhile (· ≠ c) = inside := by
    rw [List.append_assoc]
    refine takeWhile_stop (fun d hd => ?_) fun d hd => ?_
    · simp only [ne_eq, decide_not, Bool.not_eq_eq_eq_not, Bool.not_true, decide_eq_false_iff_not]
      rintro rfl
      exact hinside hd
    · cases hd
      simp
  have hstart : isWordStart c = false ∧ c.isDigit = false := by
    obtain rfl | rfl := hmark <;> decide
  rw [recognize, hstart.1, hstart.2, if_neg (by decide), if_neg (by decide), if_pos hmark]
  simp only [htake]
  rw [if_pos (by simp), List.length_append]
  rfl

/-- The texts of operators and marks. -/
theorem recognize_sign {m : Mode} {k : Terminal} {c : Char} {tail rest : List Char}
    (hm : m.expects k = true) (hk : k.isWord = false)
    (htext : c :: tail ∈ k.texts.map String.toList) (hends : k.Ends m rest) :
    recognize m c (tail ++ rest) = some (k, tail.length) := by
  have hrest : k = .compareOp → rest.head? ≠ some '=' := fun hk he => hends.operator hk '=' he rfl
  have htarget : k = .compareOp → m ≠ .target := by
    rintro rfl rfl
    cases hm
  have hassign : k = .assign → m = .target := by
    rintro rfl
    cases m <;> first | rfl | cases hm
  have hsign : (k = .addOp → m ≠ .operand) ∧ (k = .negation → m = .operand) := by
    constructor
    · rintro rfl rfl
      cases hm
    · rintro rfl
      cases m <;> first | rfl | cases hm
  cases k <;> first | exact absurd hk (by decide) | simp [Terminal.texts] at htext
  case compareOp =>
    obtain ⟨rfl, rfl⟩ | ⟨rfl, rfl⟩ | ⟨rfl, rfl⟩ | ⟨rfl, rfl⟩ | ⟨rfl, rfl⟩ | ⟨rfl, rfl⟩ := htext <;>
      simp [recognize, isWordStart, htarget rfl, hrest rfl]
  case addOp =>
    obtain ⟨rfl, rfl⟩ | ⟨rfl, rfl⟩ := htext <;> simp [recognize, isWordStart, hsign.1 rfl]
  case mulOp =>
    obtain ⟨rfl, rfl⟩ | ⟨rfl, rfl⟩ | ⟨rfl, rfl⟩ := htext <;> simp [recognize, isWordStart]
  case negation =>
    obtain ⟨rfl, rfl⟩ := htext
    simp [recognize, isWordStart, hsign.2 rfl]
  case assign =>
    obtain ⟨rfl, rfl⟩ := htext
    simp [recognize, isWordStart, hassign rfl]
  all_goals
    obtain ⟨rfl, rfl⟩ := htext
    simp [recognize, isWordStart]

/-- The terminals with few texts that are words are the keywords of the modes that expect them. -/
theorem mem_keywords {m : Mode} {k : Terminal} (hm : m.expects k = true) (hk : k.isWord = true)
    {cs : List Char} (hs : cs ∈ k.texts.map String.toList) :
    ∃ x ∈ m.keywords, x.2 = k ∧ x.1.toList = cs := by
  obtain ⟨w, hw, rfl⟩ := List.mem_map.mp hs
  refine ⟨(w, k), ?_, rfl, rfl⟩
  revert w
  cases m <;> cases k <;> first | cases hm; done | exact absurd hk (by decide) | decide

/-- A text that its mode expects is recognised, if what follows does not lengthen it. -/
theorem recognize_of_spells {m : Mode} {k : Terminal} {c : Char} {tail rest : List Char}
    (hm : m.expects k = true) (hs : k.Spells (c :: tail))
    (hname : k = .identifier → wordTerminal m (c :: tail) = .identifier) (hends : k.Ends m rest) :
    recognize m c (tail ++ rest) = some (k, tail.length) := by
  cases k with
  | identifier => exact recognize_identifier hm hs (hname rfl) hends
  | integer => exact recognize_integer hs hends
  | float => exact recognize_float hs hends
  | string => exact recognize_string hs
  | trueWord | falseWord | nullWord | ifWord | unlessWord | whileWord | untilWord | elseWord =>
    obtain ⟨x, hx, hk, htext⟩ := mem_keywords hm rfl hs
    rw [← hk] at hends ⊢
    exact recognize_keyword hx (by rw [hk]; rfl) htext hends
  | _ => exact recognize_sign hm rfl hs hends

/-! ## Pieces one behind the other -/

theorem head_of_texts (k : Terminal) : ∀ w ∈ k.texts, w.toList.head?.all (fun c =>
    (k.isWord || !isWordChar c && c != '.') && (!Mode.operand.expects k || c != '=')) = true := by
  cases k <;> decide

/-- Only words begin like words, and no operand begins like the end of an operator. -/
theorem head_of_spells {k : Terminal} {c : Char} {tail : List Char} (hs : k.Spells (c :: tail)) :
    (k.isWord = false → isWordChar c = false ∧ c ≠ '.') ∧
      (Mode.operand.expects k = true → c ≠ '=') := by
  cases k with
  | identifier =>
    obtain ⟨d, ds, hcons, hd, _⟩ := hs
    obtain ⟨rfl, _⟩ := List.cons.inj hcons
    refine ⟨nofun, fun _ hc => ?_⟩
    subst hc
    cases hd
  | integer =>
    refine ⟨nofun, fun _ hc => ?_⟩
    subst hc
    exact absurd (hs.2 '=' List.mem_cons_self) (by decide)
  | float =>
    obtain ⟨whole, part, hcons, hwhole, _⟩ := hs
    refine ⟨nofun, fun _ hc => ?_⟩
    subst hc
    cases whole with
    | nil => exact hwhole.1 rfl
    | cons d whole =>
      obtain ⟨rfl, _⟩ := List.cons.inj hcons
      exact absurd (hwhole.2 '=' List.mem_cons_self) (by decide)
  | string =>
    obtain ⟨mark, inside, hmark, _, hcons⟩ := hs
    obtain ⟨rfl, _⟩ := List.cons.inj hcons
    obtain rfl | rfl := hmark <;> decide
  | _ =>
    obtain ⟨w, hw, htext⟩ := List.mem_map.mp hs
    have hhead := head_of_texts _ w hw
    rw [htext] at hhead
    simp only [List.head?_cons, Option.all_some, Bool.and_eq_true, Bool.or_eq_true,
      Bool.not_eq_true', bne_iff_ne] at hhead
    obtain ⟨hword, hequals⟩ := hhead
    exact ⟨fun hk => hword.resolve_left (by simp [hk]),
      fun hm => hequals.resolve_left (by simp [hm])⟩

/-- A gap lengthens no token. -/
theorem stops_of_gap {k : Terminal} {c : Char} (h : isGap c = true ∨ c = '#') (rest : List Char) :
    k.Stops (c :: rest) := by
  intro d hd
  obtain rfl : c = d := Option.some.inj hd
  simp only [isGap, Bool.or_eq_true, decide_eq_true_eq] at h
  obtain (((rfl | rfl) | rfl) | rfl) | rfl := h <;>
    exact ⟨fun _ => ⟨by decide, by decide⟩, fun _ => by decide⟩

theorem Gap.head {c : Char} {cs : List Char} (h : Gap (c :: cs)) : isGap c = true ∨ c = '#' := by
  cases h with
  | blank hc _ => exact .inl hc
  | comment _ _ => exact .inr rfl

theorem Trailing.stops {last : List Char} (h : Trailing last) (k : Terminal) : k.Stops last := by
  cases h with
  | gap h =>
    cases last with
    | nil => exact nofun
    | cons c cs => exact stops_of_gap h.head cs
  | @comment cs text h ht =>
    cases cs with
    | nil => exact stops_of_gap (.inr rfl) text
    | cons c cs => exact stops_of_gap h.head _

def Apart (ps : List Piece) : Prop :=
  ps.IsChain fun x y => x.terminal.isWord = true → y.terminal.isWord = true → y.gap ≠ []

/-- A piece behind a token does not lengthen the token. -/
theorem Piece.Fits.stops {x : Piece} (hx : x.Fits) {m : Mode} {k : Terminal}
    (hm : (m.after k).expects x.terminal = true)
    (hapart : k.isWord = true → x.terminal.isWord = true → x.gap ≠ []) (rest : List Char) :
    k.Stops (x.gap ++ (x.text ++ rest)) := by
  cases hg : x.gap with
  | cons c cs => exact stops_of_gap (hg ▸ hx.1).head _
  | nil =>
    cases ht : x.text with
    | nil => exact absurd ht (spells_ne_nil hx.2)
    | cons c cs =>
      obtain ⟨hword, hequals⟩ := head_of_spells (ht ▸ hx.2)
      intro d hd
      obtain rfl : c = d := Option.some.inj hd
      refine ⟨fun hk => hword ?_, fun hk => hequals ?_⟩
      · cases hxw : x.terminal.isWord with
        | false => rfl
        | true => exact absurd hg (hapart hk hxw)
      · subst hk
        exact hm

def Named : Mode → List Piece → Prop
  | _, [] => True
  | m, x :: ps =>
    (x.terminal = .identifier → wordTerminal m x.text = .identifier) ∧ Named (m.after x.terminal) ps

theorem Named.other {m : Mode} {k : Terminal} {gap text : List Char} {ps : List Piece}
    (hk : k ≠ .identifier) (h : Named (m.after k) ps) : Named m (⟨gap, k, text⟩ :: ps) :=
  ⟨fun hname => absurd hname hk, h⟩

theorem named_of_free {m : Mode} {ps : List Piece}
    (h : ∀ x ∈ ps, x.terminal = .identifier → String.ofList x.text ∉ reserved) : Named m ps := by
  induction ps generalizing m with
  | nil => trivial
  | cons x ps ih =>
    obtain ⟨hx, hps⟩ := List.forall_mem_cons.mp h
    exact ⟨fun hk => wordTerminal_of_free m (hx hk), ih hps⟩

/-- Pieces whose terminals are expected, and that keep words apart, are scanned as they are
written. A keyword may be a name wherever it is not told from one. -/
theorem scans_of_named {m : Mode} {ps : List Piece} {last : List Char}
    (hmeets : m.Meets (ps.map Piece.terminal)) (hfits : ∀ x ∈ ps, x.Fits) (hnames : Named m ps)
    (hapart : Apart ps) (hlast : Trailing last) : Scans m ps last := by
  induction ps generalizing m with
  | nil => exact .done hlast
  | cons x ps ih =>
    have hrest := ih hmeets.2 (fun y hy => hfits y (List.mem_cons_of_mem x hy)) hnames.2
      hapart.tail
    have hx := hfits x List.mem_cons_self
    have hname := hnames.1
    obtain ⟨gap, k, text⟩ := x
    cases text with
    | nil => exact absurd rfl (spells_ne_nil hx.2)
    | cons c tail =>
      refine .token hx.1 (recognize_of_spells hmeets.1 hx.2 hname (Terminal.Stops.ends ?_ m)) hrest
      cases ps with
      | nil => exact hlast.stops k
      | cons y ps =>
        rw [written_cons]
        exact (hfits y (List.mem_cons_of_mem _ List.mem_cons_self)).stops hmeets.2.1
          (List.isChain_cons_cons.mp hapart).1 _

/-- Names that are no keywords anywhere are names wherever they stand. -/
theorem scans_of_apart {m : Mode} {ps : List Piece} {last : List Char}
    (hmeets : m.Meets (ps.map Piece.terminal)) (hfits : ∀ x ∈ ps, x.Fits)
    (hnames : ∀ x ∈ ps, x.terminal = .identifier → String.ofList x.text ∉ reserved)
    (hapart : Apart ps) (hlast : Trailing last) : Scans m ps last :=
  scans_of_named hmeets hfits (named_of_free hnames) hapart hlast

/-! ## Words and numbers -/

theorem gap_space : Gap [' '] := .blank (by decide) .nil

theorem spells_assign : Terminal.assign.Spells ['='] :=
  @spells_of_mem_texts .assign "=" (List.mem_singleton_self _)

theorem spells_wordTerminal {w : List Char} (m : Mode) (h : Terminal.identifier.Spells w) :
    (wordTerminal m w).Spells w := by
  obtain ⟨c, tail, rfl, hc, htail⟩ := h
  exact wordTerminal_spells m hc htail

def bindingPieces (w digits : List Char) : List Piece :=
  [⟨[], .identifier, w⟩, ⟨[' '], .assign, ['=']⟩, ⟨[' '], .integer, digits⟩]

section

variable {w digits : List Char}

theorem fits_binding (hw : Terminal.identifier.Spells w) (hdigits : IsDigits digits) :
    ∀ x ∈ bindingPieces w digits, x.Fits := by
  simp only [bindingPieces, List.forall_mem_cons]
  exact ⟨⟨.nil, hw⟩, ⟨gap_space, spells_assign⟩, ⟨gap_space, hdigits⟩, List.forall_mem_nil _⟩

/-- A word that is a name where a statement begins can be bound, whatever it is elsewhere. -/
theorem read_binding {source : String} (hw : Terminal.identifier.Spells w)
    (hname : wordTerminal .line w = .identifier) (hdigits : IsDigits digits)
    (hsource : source.toList = written (bindingPieces w digits)) :
    ∃ a b : Span, read source = .ok ⟨[.assign ⟨String.ofList w, a⟩
      (.literal .integer ⟨String.ofList digits, b⟩) (a.to b)], some (a.to b)⟩ := by
  have hnames : Named .line (bindingPieces w digits) :=
    ⟨fun _ => hname, .other (by decide) (.other (by decide) trivial)⟩
  have hapart : Apart (bindingPieces w digits) := by
    simp [Apart, bindingPieces, Terminal.isWord]
  have hscans : Scans .line (bindingPieces w digits) [] :=
    scans_of_named ⟨rfl, rfl, rfl, trivial⟩ (fits_binding hw hdigits) hnames hapart (.gap .nil)
  rw [← List.append_nil (written _)] at hsource
  exact ⟨_, _, read_of_scans hsource hscans rfl rfl⟩

end

end Scriptlet.Source
