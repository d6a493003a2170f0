import Scriptlet.Proofs.Locating
import Scriptlet.Proofs.Soundness
/-!
# Nodes that do not fit

Whatever the tree, a node that does not meet what its label requires fails before any of its
children is evaluated, in the state in which it was entered; and no other step of an evaluation
fails with such a fault, functions of the host apart. Main statement: `misfit_of_structural`.
-/

namespace Scriptlet

open Source (LiteralKind)

/-- To evaluate a node is to fail with a fault, under any host and from any state, which stays as it
was. -/
def Node.Refuses (n : Node) (f : Fault) : Prop :=
  ∀ host rounds s, eval host rounds n s = (.error (.failure ⟨f, n.place.location⟩), s)

def Host.Brings (host : Host) (K : Callable → Prop) (f : Fault) : Prop :=
  ∃ c args, K c ∧ (host.reply c.ident args).answer = .fails f

/-! ## Structural faults -/

theorem Fault.Ordinary.not_structural {f : Fault} (h : f.Ordinary) : ¬ f.Structural := by
  rintro (hf | ⟨l, rfl⟩ | ⟨kind, raw, rfl⟩)
  · exact h.1 hf
  · exact h.2 rfl
  · exact h.2 rfl

theorem Fault.Structural.classes {f : Fault} (h : f.Structural) :
    f.faultClass = .shape ∨ f.faultClass = .unsupported := by
  rcases h with h | ⟨l, rfl⟩ | ⟨kind, raw, rfl⟩
  · exact .inl h
  · exact .inr rfl
  · exact .inr rfl

theorem literalKind_of_mem {kind : TokenKind} (h : kind ∈ literalKinds) :
    ∃ k : LiteralKind, kind = k.tokenKind := by
  simp only [literalKinds, List.mem_cons, List.not_mem_nil, or_false] at h
  rcases h with rfl | rfl | rfl | rfl | rfl | rfl
  · exact ⟨.integer, rfl⟩
  · exact ⟨.float, rfl⟩
  · exact ⟨.string, rfl⟩
  · exact ⟨.trueWord, rfl⟩
  · exact ⟨.falseWord, rfl⟩
  · exact ⟨.nullWord, rfl⟩

/-- A literal has a structural fault only if its kind has no meaning. -/
theorem unsupported_of_literalValue {kind : TokenKind} {raw : String} {f : Fault}
    (h : literalValue kind raw = .error f) (hf : f.Structural) :
    kind ∉ literalKinds ∧ f = .unsupportedLiteral kind raw := by
  have hkind : kind ∉ literalKinds := by
    intro hmem
    obtain ⟨k, rfl⟩ := literalKind_of_mem hmem
    exact (literalValue_ordinary h).not_structural hf
  rw [literalValue_of_not_mem hkind] at h
  exact ⟨hkind, (Except.error.inj h).symm⟩

theorem not_structural_of_applyOperator {level : Source.Level} {op : String} {a b : Value}
    {f : Fault} (h : applyOperator level op a b = .error f) : ¬ f.Structural := by
  rcases applyOperator_cases level op a b with ⟨v, hv, -⟩ | ⟨g, hg, hord | ⟨-, rfl⟩⟩
  · rw [hv] at h
    cases h
  · obtain rfl := Except.error.inj (hg.symm.trans h)
    exact hord.not_structural
  · obtain rfl := Except.error.inj (hg.symm.trans h)
    cases level <;> rintro (hf | ⟨l, hf⟩ | ⟨kind, raw, hf⟩) <;> cases hf

/-! ## Nodes -/

section

variable {host : Host} {rounds : Nat} {n m : Node} {s t : State} {f : Fault}

theorem refuses_of_misfit? (h : n.misfit? = some f) : n.Refuses f := by
  intro host rounds s
  have hleaving := leaving_of_native (structural_of_misfit? h).native none n.place
  rw [eval_of_misfit? h, Run.located]
  simp only [Run.fail, Run.stop, hleaving, Option.none_or]

/-- A node that enters a child meets what its label requires. -/
theorem misfit?_of_enters (h : Enters host rounds n s m t) : n.misfit? = none := by
  cases h with
  | statement hl _ => exact misfit?_statements hl _ _
  | source | argument _ | operand | branch => rfl
  | left | right _ => exact misfit?_binary _ _ _ _ _ _
  | condition single | body single _ _ | round single _ _ _ | again single _ _ _ _ =>
    exact misfit?_conditional _ _ _ _ _ _ single
  | otherwise _ => exact misfit?_conditional _ _ _ _ _ _ (Nat.le_refl 1)

theorem not_enters_of_misfit? (h : n.misfit? = some f) : ¬ Enters host rounds n s m t := by
  intro he
  rw [misfit?_of_enters he] at h
  cases h

/-- A structural failure that is not brought in by a function of the host arises in a node that does
not meet what its label requires, in the state in which that node was entered. -/
theorem misfit?_of_origin {I : State → Prop} {V : Value → Prop} {g : Failure}
    (k : Kept host I V) (keeps : ∀ m, Keeps host rounds I V m) (hs : I s)
    (h : Origin host rounds n s g t) (hg : g.fault.Structural)
    (hown : ¬ host.Brings (fun c => V (.callable c)) g.fault) :
    n.misfit? = some g.fault ∧ t = s := by
  obtain ⟨fault, rfl, hraises⟩ := raises_of_origin h
  rw [fault_leaving] at hg hown ⊢
  cases hraises with
  | misfit hm _ => exact ⟨hm, rfl⟩
  | name _ _ => exact absurd hg (Fault.ordinary_of_class .name rfl (by decide)).not_structural
  | literal hn hl =>
    obtain ⟨hkind, hfault⟩ := unsupported_of_literalValue hl hg
    rw [misfit?_literal hn, if_neg hkind, hfault]
    exact ⟨rfl, rfl⟩
  | call hvs hc =>
    cases callFault_of_call k keeps hs hvs hc with
    | own hclass =>
      rcases hg.classes with hf | hf <;> rw [hf] at hclass <;>
        rcases hclass with hclass | hclass | hclass <;> cases hclass
    | native hV _ ha => exact absurd ⟨_, _, hV, ha⟩ hown
  | negate _ hn => exact absurd hg (negate_ordinary hn).not_structural
  | operator _ _ ho => exact absurd hg (not_structural_of_applyOperator ho)
  | condition _ hc | again _ _ _ _ hc => exact absurd hg (conditionMet_ordinary hc).not_structural

end

/-- Let no function that a tree can come by fail with a fault of shape. If a run of the tree fails
for its shape, a label or a kind of literal without a meaning, and not because a function of the
host failed with just that, then it has reached a node that does not meet what its label requires;
it ends in the state in which that node was entered, with no child of it entered, and so it is with
every node in which such a failure arises. Conversely a node that does not meet what its label
requires always fails so, under any host and from any state, and with the same fault whatever its
place and the children that may be anything; and a run that reaches it fails with it there. -/
theorem misfit_of_structural {host : Host} {env : Environment}
    (hhost : ∀ c, Available host env c → ∀ args f,
      (host.reply c.ident args).answer = .fails f → f.faultClass ≠ .shape)
    (rounds : Nat) (n : Node) (log : List Event) :
    (∀ f t, eval host rounds n ⟨env, log⟩ = (.error (.failure f), t) → f.fault.Structural →
      (f.fault.faultClass = .unsupported → ¬ host.Brings (Available host env) f.fault) →
        ∃ m, Reaches host rounds n ⟨env, log⟩ m t ∧ m.misfit? = some f.fault ∧
          m.Refuses f.fault ∧ ∀ k w, ¬ Enters host rounds m t k w) ∧
    (∀ m u f v, Reaches host rounds n ⟨env, log⟩ m u → Origin host rounds m u f v →
      f.fault.Structural →
      (f.fault.faultClass = .unsupported → ¬ host.Brings (Available host env) f.fault) →
        m.misfit? = some f.fault ∧ m.Refuses f.fault ∧ v = u ∧
          ∀ k w, ¬ Enters host rounds m u k w) ∧
    ∀ m : Node, ¬ m.Fits → ∃ f : Fault, m.misfit? = some f ∧ f.Structural ∧ m.Refuses f ∧
      (∀ label kids place kids' place', m = .tree label kids place → SameFrame label kids kids' →
        (Node.tree label kids' place').Refuses f) ∧
      ∀ u, Reaches host rounds n ⟨env, log⟩ m u → (eval host rounds n).Ends ⟨env, log⟩ →
        ∃ g, g.fault = f ∧ eval host rounds n ⟨env, log⟩ = (.error (.failure g), u) := by
  have hkept : Kept host (State.Within (Available host env)) (Value.Within (Available host env)) :=
    within_kept available_closed
  have hkeeps : ∀ m, Keeps host rounds _ _ m := keeps_of_kept hkept State.Within.assign
  have harises : ∀ m u f v, Reaches host rounds n ⟨env, log⟩ m u → Origin host rounds m u f v →
      f.fault.Structural →
      (f.fault.faultClass = .unsupported → ¬ host.Brings (Available host env) f.fault) →
        m.misfit? = some f.fault ∧ m.Refuses f.fault ∧ v = u ∧
          ∀ k w, ¬ Enters host rounds m u k w := by
    intro m u f v hreach horigin hf hown
    have hbrings :
        ¬ host.Brings (fun c => Value.Within (Available host env) (.callable c)) f.fault := by
      rintro ⟨c, args, hc, ha⟩
      rcases hf.classes with hclass | hclass
      · exact hhost c (hc c rfl) args _ ha hclass
      · exact hown hclass ⟨c, args, hc c rfl, ha⟩
    have hu := state_of_reaches hkeeps (within_start host env log) hreach
    obtain ⟨hm, hv⟩ := misfit?_of_origin hkept hkeeps hu horigin hf hbrings
    exact ⟨hm, refuses_of_misfit? hm, hv, fun k w => not_enters_of_misfit? hm⟩
  refine ⟨fun f t hfails hf hown => ?_, harises, fun m hm => ?_⟩
  · obtain ⟨path, m, u, g, htrail, horigin⟩ := origin_of_failure hfails
    obtain ⟨e, he, hn⟩ := fails_of_reaches htrail.reaches (Run.ends_of_failure hfails) horigin.fails
    rw [hfails] at hn
    cases hn
    rw [he] at hf hown ⊢
    obtain ⟨hmisfit, hrefuses, rfl, hnone⟩ := harises m u g t htrail.reaches horigin hf hown
    exact ⟨m, htrail.reaches, hmisfit, hrefuses, hnone⟩
  · obtain ⟨f, hf⟩ := Option.ne_none_iff_exists'.mp (mt (misfit?_eq_none_iff m).mp hm)
    refine ⟨f, hf, structural_of_misfit? hf, refuses_of_misfit? hf, ?_, fun u hreach hends => ?_⟩
    · rintro label kids place kids' place' rfl hframe
      exact refuses_of_misfit? ((misfit?_of_sameFrame hframe place place').trans hf)
    · exact fails_of_reaches hreach hends (refuses_of_misfit? hf host rounds u)

/-- A product whose operator is that of a sum, in the second statement: its second operand would
print, and does not. -/
theorem misfit_of_structural_operator :
    let text (s : String) : Node := .tree .constant [.token .string s .unknown] .unknown
    let print (s : String) : Node :=
      .tree .functionCall [.token .identifier "Print" .unknown, text s] .unknown
    let product : Node := .tree .multiplicative [text "b", .token .addOp "+" .unknown, print "c"]
      (.given (some 2) (some 5))
    let second : Node := .tree .assignment [.token .identifier "x" .unknown, product] .unknown
    let n : Node := .tree .program [print "a", second] .unknown
    ∃ f t m, eval .standard 1 n ⟨Registry.standard.environment, []⟩ = (.error (.failure f), t) ∧
      f.fault.Structural ∧
      f.message = "Expected MUL_OP token, got Token('ADD_OP', '+') (line 2, col 5)" ∧
      Event.output t.log = "a\n" ∧
      Reaches .standard 1 n ⟨Registry.standard.environment, []⟩ m t ∧ m.misfit? = some f.fault ∧
      m.Refuses f.fault ∧ ∀ k w, ¬ Enters .standard 1 m t k w := by
  intro text print product second n
  have hrun : ((eval .standard 1 n).failure? ⟨Registry.standard.environment, []⟩).map
      (fun f => (f.fault.faultClass, f.message)) =
        some (.shape, "Expected MUL_OP token, got Token('ADD_OP', '+') (line 2, col 5)") := by
    decide +kernel
  have hout : Event.output (eval .standard 1 n ⟨Registry.standard.environment, []⟩).2.log =
      "a\n" := by
    decide +kernel
  obtain ⟨f, hfailure, hf⟩ := Option.map_eq_some_iff.mp hrun
  obtain ⟨hclass, hmessage⟩ := Prod.mk.inj hf
  obtain ⟨t, hfails⟩ := Run.eq_of_failure? hfailure
  rw [hfails] at hout
  have hhost : ∀ c, Available .standard Registry.standard.environment c → ∀ args f,
      (Host.standard.reply c.ident args).answer = .fails f → f.faultClass ≠ .shape :=
    fun c hc args f h => (standard_tame _ c hc args f h).1
  obtain ⟨harises, -⟩ := misfit_of_structural hhost 1 n []
  obtain ⟨m, hreach, hm, hrefuses, hnone⟩ := harises f t hfails (.inl hclass) fun h => by
    rw [hclass] at h
    cases h
  exact ⟨f, t, m, hfails, .inl hclass, hmessage, hout, hreach, hm, hrefuses, hnone⟩

end Scriptlet
