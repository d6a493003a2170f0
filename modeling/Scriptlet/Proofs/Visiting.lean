import Scriptlet.Proofs.Entering
/-!
# What a node enters

The children that a node enters and the states it enters them in, read off its label and its
children (`visits_of_enters`). For a conditional that is both ways (`enters_conditional`).
-/

namespace Scriptlet

open Source (Keyword Level)

section

variable (host : Host) (rounds : Nat)

/-- What a conditional enters once its condition is met. -/
def Proceeds (w : Keyword) (word : String) (c b : Node) (s : State) (m : Node) (t : State) : Prop :=
  match w with
  | .ifWord | .unlessWord => m = b ∧ t = s
  | .whileWord | .untilWord =>
    ∃ u, Run.Rounds (check host rounds w word c) (once host rounds b) s u ∧
      ((m = b ∧ t = u) ∨ (m = c ∧ once host rounds b u = (.ok (), t)))

def Branches (w : Keyword) (word : String) (c b : Node) (otherwise : List Node) (s : State)
    (m : Node) (t : State) : Prop :=
  (m = c ∧ t = s) ∨
    (∃ u, check host rounds w word c s = (.ok true, u) ∧ Proceeds host rounds w word c b u m t) ∨
    (otherwise = [m] ∧ check host rounds w word c s = (.ok false, t))

def Visits (s : State) (m : Node) (t : State) : Node → Prop
  | .tree .program kids _ | .tree .block kids _ =>
    ∃ before after, kids = before ++ m :: after ∧ evalAll host rounds before s = (.ok (), t)
  | .tree .assignment kids _ => ∃ target, kids = [target, m] ∧ t = s
  | .tree .functionCall kids _ => ∃ callee before after vs,
    kids = callee :: (before ++ m :: after) ∧ evalArgs host rounds before s = (.ok vs, t)
  | .tree .negate kids _ | .tree .elseBlock kids _ => kids = [m] ∧ t = s
  | .tree .comparison [lhs, _, rhs] _ | .tree .additive [lhs, _, rhs] _
  | .tree .multiplicative [lhs, _, rhs] _ =>
    (m = lhs ∧ t = s) ∨ (m = rhs ∧ ∃ a, eval host rounds lhs s = (.ok a, t))
  | .tree .ifBlock (.token _ word _ :: c :: b :: otherwise) _ =>
    Branches host rounds .ifWord word c b otherwise s m t
  | .tree .whileBlock (.token _ word _ :: c :: b :: otherwise) _ =>
    Branches host rounds .whileWord word c b otherwise s m t
  | _ => False

end

section

variable {host : Host} {rounds : Nat} {n m : Node} {s t : State}

theorem visits_of_enters (h : Enters host rounds n s m t) : Visits host rounds s m t n := by
  cases h with
  | statement hl h =>
    rcases hl with rfl | rfl
    · exact ⟨_, _, rfl, h⟩
    · exact ⟨_, _, rfl, h⟩
  | source => exact ⟨_, rfl, rfl⟩
  | argument h => exact ⟨_, _, _, _, rfl, h⟩
  | operand | branch => exact ⟨rfl, rfl⟩
  | @left level => cases level <;> exact .inl ⟨rfl, rfl⟩
  | @right level _ _ _ _ _ _ _ a h => cases level <;> exact .inr ⟨rfl, a, h⟩
  | @condition w => cases w <;> exact .inl ⟨rfl, rfl⟩
  | @body w _ _ _ _ _ _ _ _ _ hw h =>
    cases w with
    | ifWord | unlessWord => exact .inr (.inl ⟨_, h, rfl, rfl⟩)
    | whileWord | untilWord => cases hw
  | @round w _ _ _ _ _ _ _ _ _ _ hw h behind =>
    cases w with
    | ifWord | unlessWord => cases hw
    | whileWord | untilWord => exact .inr (.inl ⟨_, h, _, behind, .inl ⟨rfl, rfl⟩⟩)
  | @again w _ _ _ _ _ _ _ _ _ _ _ hw h behind hb =>
    cases w with
    | ifWord | unlessWord => cases hw
    | whileWord | untilWord => exact .inr (.inl ⟨_, h, _, behind, .inr ⟨rfl, hb⟩⟩)
  | @otherwise w _ _ _ _ _ _ _ _ h => cases w <;> exact .inr (.inr ⟨rfl, h⟩)

theorem enters_conditional {w : Keyword} {word : String} {c b : Node} {otherwise : List Node}
    {p place : Place} (single : otherwise.length ≤ 1) :
    Enters host rounds
        (.tree w.label (.token w.tokenKind word p :: c :: b :: otherwise) place) s m t ↔
      Branches host rounds w word c b otherwise s m t := by
  constructor
  · intro he
    have hvisits := visits_of_enters he
    cases w <;> exact hvisits
  · rintro (⟨rfl, rfl⟩ | ⟨u, hmet, hproceeds⟩ | ⟨rfl, hmet⟩)
    · exact .condition single
    · cases w with
      | ifWord | unlessWord =>
        obtain ⟨rfl, rfl⟩ := hproceeds
        exact .body single rfl hmet
      | whileWord | untilWord =>
        obtain ⟨v, behind, ⟨rfl, rfl⟩ | ⟨rfl, hb⟩⟩ := hproceeds
        · exact .round single rfl hmet behind
        · exact .again single rfl hmet behind hb
    · exact .otherwise hmet

end

end Scriptlet
