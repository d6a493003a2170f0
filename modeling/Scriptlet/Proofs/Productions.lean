import Scriptlet.Proofs.Reading.Building
/-!
# Productions taken apart

What tokens and nodes are made of if a production holds of them, one lemma for each way in which the
productions of the grammar are built. An induction over derivations reads these instead of the
phrases.
-/

namespace Scriptlet.Source

variable {M : Rule → List Token → List Node → Prop} {ts : List Token} {ns : List Node}

theorem parts_statement
    (h : (Phrase.seq .simple (.optional (.terminal .semicolon))).Holds M ts ns) :
    ∃ us, (M .assignment us ns ∨ M .functionCall us ns) ∧
      (ts = us ∨ ∃ t : Token, t.terminal = .semicolon ∧ ts = us ++ [t]) := by
  obtain ⟨us, ns, _, _, hsimple, hend, rfl, rfl⟩ := h
  rcases hend with ⟨t, ht, _, rfl, rfl⟩ | ⟨rfl, rfl⟩
  · rw [nodes_of_filtered (by rw [ht]; rfl), List.append_nil]
    exact ⟨us, hsimple, .inr ⟨t, ht, rfl⟩⟩
  · rw [List.append_nil, List.append_nil]
    exact ⟨us, hsimple, .inl rfl⟩

theorem parts_block (h : (Phrase.seq (.terminal .leftBrace)
      (.seq (.many (.rule .line)) (.terminal .rightBrace))).Holds M ts ns) :
    ∃ (l r : Token) (us : List Token), l.terminal = .leftBrace ∧ r.terminal = .rightBrace ∧
      Repeats (M .line) us ns ∧ ts = l :: (us ++ [r]) := by
  obtain ⟨_, _, _, _, ⟨l, hl, _, rfl, rfl⟩,
    ⟨us, ns, _, _, hlines, ⟨r, hr, _, rfl, rfl⟩, rfl, rfl⟩, rfl, rfl⟩ := h
  rw [nodes_of_filtered (by rw [hl]; rfl), nodes_of_filtered (t := r) (by rw [hr]; rfl),
    List.append_nil]
  exact ⟨l, r, us, hl, hr, hlines, rfl⟩

theorem parts_assignment (h : (Phrase.seq (.terminal .identifier)
      (.seq (.terminal .assign) (.rule .expression))).Holds M ts ns) :
    ∃ (t a : Token) (us : List Token) (ms : List Node), t.terminal = .identifier ∧
      a.terminal = .assign ∧ M .expression us ms ∧ ts = t :: a :: us ∧
      ns = (Progress.word t).toNode .identifier :: ms := by
  obtain ⟨_, _, _, _, ⟨t, ht, _, rfl, rfl⟩,
    ⟨_, _, us, ms, ⟨a, ha, _, rfl, rfl⟩, he, rfl, rfl⟩, rfl, rfl⟩ := h
  rw [nodes_of_filtered (t := a) (by rw [ha]; rfl), nodes_of_kind (by rw [ht]; rfl)]
  exact ⟨t, a, us, ms, ht, ha, he, rfl, rfl⟩

def NextArgument (E : List Token → List Node → Prop) (ts : List Token) (ns : List Node) : Prop :=
  ∃ (c : Token) (us : List Token), c.terminal = .comma ∧ E us ns ∧ ts = c :: us

def Arguments (E : List Token → List Node → Prop) (ts : List Token) (ns : List Node) : Prop :=
  ts = [] ∧ ns = [] ∨
    ∃ us ks vs ms, E us ks ∧ Repeats (NextArgument E) vs ms ∧ ts = us ++ vs ∧ ns = ks ++ ms

theorem Repeats.mono {R S : List Token → List Node → Prop} (h : Repeats R ts ns)
    (hRS : ∀ us ms, R us ms → S us ms) : Repeats S ts ns := by
  induction h with
  | none => exact .none
  | more h _ ih => exact .more (hRS _ _ h) ih

theorem parts_call (h : (Phrase.seq (.terminal .identifier) (.seq (.terminal .leftParen)
      (.seq (.optional .arguments) (.terminal .rightParen)))).Holds M ts ns) :
    ∃ (t l r : Token) (us : List Token) (ms : List Node), t.terminal = .identifier ∧
      l.terminal = .leftParen ∧ r.terminal = .rightParen ∧ Arguments (M .expression) us ms ∧
      ts = t :: l :: (us ++ [r]) ∧ ns = (Progress.word t).toNode .identifier :: ms := by
  obtain ⟨_, _, _, _, ⟨t, ht, _, rfl, rfl⟩, ⟨_, _, _, _, ⟨l, hl, _, rfl, rfl⟩,
    ⟨us, ms, _, _, hargs, ⟨r, hr, _, rfl, rfl⟩, rfl, rfl⟩, rfl, rfl⟩, rfl, rfl⟩ := h
  rw [nodes_of_filtered (t := l) (by rw [hl]; rfl), nodes_of_filtered (t := r) (by rw [hr]; rfl),
    nodes_of_kind (by rw [ht]; rfl), List.append_nil]
  refine ⟨t, l, r, us, ms, ht, hl, hr, ?_, rfl, rfl⟩
  rcases hargs with ⟨us, ks, vs, ms, he, hrest, rfl, rfl⟩ | ⟨rfl, rfl⟩
  · refine .inr ⟨us, ks, vs, ms, he, Repeats.mono hrest ?_, rfl, rfl⟩
    rintro _ _ ⟨_, _, xs, ns, ⟨c, hc, _, rfl, rfl⟩, hx, rfl, rfl⟩
    rw [nodes_of_filtered (by rw [hc]; rfl)]
    exact ⟨c, xs, hc, hx, rfl⟩
  · exact .inl ⟨rfl, rfl⟩

theorem parts_conditional {a b : Terminal} (h : (Phrase.conditional a b).Holds M ts ns) :
    ∃ (k : Token) (us vs ws : List Token) (ks ms os : List Node),
      (k.terminal = a ∨ k.terminal = b) ∧ k.Spelled ∧ M .expression us ks ∧ M .block vs ms ∧
      (ws = [] ∧ os = [] ∨
        ∃ (t : Token) (xs : List Token), t.terminal = .elseWord ∧ M .elseBlock xs os ∧
          ws = t :: xs) ∧
      ts = k :: (us ++ (vs ++ ws)) ∧ ns = k.nodes ++ (ks ++ (ms ++ os)) := by
  obtain ⟨_, kns, _, _, hk, ⟨us, ks, _, _, hc, ⟨vs, ms, ws, os, hb, ho, rfl, rfl⟩, rfl, rfl⟩,
    rfl, rfl⟩ := h
  have hbranch : ws = [] ∧ os = [] ∨
      ∃ (t : Token) (xs : List Token), t.terminal = .elseWord ∧ M .elseBlock xs os ∧
        ws = t :: xs := by
    rcases ho with ⟨_, _, xs, os, ⟨t, ht, _, rfl, rfl⟩, he, rfl, rfl⟩ | ⟨rfl, rfl⟩
    · rw [nodes_of_filtered (by rw [ht]; rfl)]
      exact .inr ⟨t, xs, ht, he, rfl⟩
    · exact .inl ⟨rfl, rfl⟩
  rcases hk with ⟨k, hk, hs, rfl, rfl⟩ | ⟨k, hk, hs, rfl, rfl⟩
  · exact ⟨k, us, vs, ws, ks, ms, os, .inl hk, hs, hc, hb, hbranch, rfl, rfl⟩
  · exact ⟨k, us, vs, ws, ks, ms, os, .inr hk, hs, hc, hb, hbranch, rfl, rfl⟩

/-- The words of a conditional are keywords. -/
theorem ifBlock_words (k : Terminal) (h : k = .ifWord ∨ k = .unlessWord) :
    ∃ w : Keyword, w.terminal = k ∧ w.label = .ifBlock := by
  rcases h with rfl | rfl
  · exact ⟨.ifWord, rfl, rfl⟩
  · exact ⟨.unlessWord, rfl, rfl⟩

theorem whileBlock_words (k : Terminal) (h : k = .whileWord ∨ k = .untilWord) :
    ∃ w : Keyword, w.terminal = k ∧ w.label = .whileBlock := by
  rcases h with rfl | rfl
  · exact ⟨.whileWord, rfl, rfl⟩
  · exact ⟨.untilWord, rfl, rfl⟩

/-- The rule of a level hands on an operand or joins two with an operator. -/
theorem parts_operators {level : Level} {p : Production} (mem : p ∈ level.rule.productions)
    (h : p.phrase.Holds M ts ns) :
    (∃ l, p.shaping = .spliceSingle l ∧ M level.inner ts ns) ∨
      p.shaping = .tree level.label ∧
        ∃ (us vs : List Token) (t : Token) (ks ms : List Node), M level.rule us ks ∧
          t.Is level.terminal ∧ M level.inner vs ms ∧ ts = us ++ t :: vs ∧
          ns = ks ++ (Progress.word t).toNode level.tokenKind :: ms := by
  rcases mem_operators mem with ⟨l, rfl⟩ | rfl
  · exact .inl ⟨l, rfl, h⟩
  · obtain ⟨us, ks, _, _, hl, ⟨_, _, vs, ms, ⟨t, ht, hs, rfl, rfl⟩, hr, rfl, rfl⟩, rfl, rfl⟩ := h
    rw [nodes_of_kind (by rw [ht]; exact level_kind level)]
    exact .inr ⟨rfl, us, vs, t, ks, ms, hl, ⟨ht, hs⟩, hr, rfl, rfl⟩

theorem parts_negate (h : (Phrase.seq (.terminal .negation) (.rule .atom)).Holds M ts ns) :
    ∃ (t : Token) (us : List Token), t.terminal = .negation ∧ M .atom us ns ∧ ts = t :: us := by
  obtain ⟨_, _, us, ms, ⟨t, ht, _, rfl, rfl⟩, ho, rfl, rfl⟩ := h
  rw [nodes_of_filtered (by rw [ht]; rfl)]
  exact ⟨t, us, ht, ho, rfl⟩

theorem parts_paren (h : (Phrase.seq (.terminal .leftParen)
      (.seq (.rule .expression) (.terminal .rightParen))).Holds M ts ns) :
    ∃ (l r : Token) (us : List Token), l.terminal = .leftParen ∧ r.terminal = .rightParen ∧
      M .expression us ns ∧ ts = l :: (us ++ [r]) := by
  obtain ⟨_, _, _, _, ⟨l, hl, _, rfl, rfl⟩,
    ⟨us, ms, _, _, he, ⟨r, hr, _, rfl, rfl⟩, rfl, rfl⟩, rfl, rfl⟩ := h
  rw [nodes_of_filtered (by rw [hl]; rfl), nodes_of_filtered (t := r) (by rw [hr]; rfl),
    List.append_nil]
  exact ⟨l, r, us, hl, hr, he, rfl⟩

/-- A literal is one token, of one of the kinds of literals. -/
theorem parts_constant {p : Production} (mem : p ∈ Rule.constant.productions)
    (h : p.phrase.Holds M ts ns) :
    p.shaping = .tree .constant ∧
      ∃ (t : Token) (kind : LiteralKind), Progress.literal? t.terminal = some kind ∧ ts = [t] ∧
        ns = t.nodes := by
  simp only [Rule.productions, List.map_cons, List.map_nil, List.mem_cons, List.not_mem_nil,
    or_false] at mem
  have hkind : ∃ k kind, Progress.literal? k = some kind ∧ p = ⟨.tree .constant, .terminal k⟩ := by
    rcases mem with h | h | h | h | h | h <;> exact ⟨_, _, rfl, h⟩
  obtain ⟨k, kind, hk, rfl⟩ := hkind
  obtain ⟨t, rfl, _, rfl, rfl⟩ := h
  exact ⟨rfl, t, kind, hk, rfl, rfl⟩

end Scriptlet.Source
