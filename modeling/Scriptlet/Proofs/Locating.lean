import Scriptlet.Proofs.Continuing
import Scriptlet.Proofs.Safety
/-!
# Where failures are located

A failure arises in the deepest of the nodes that are being evaluated at that moment (`Origin`), and
on its way out it passes the nodes on the trail to it, each of which may lend it a location. The one
that does is the innermost that has any (`nearest`), because a failure that has its location takes
no other. Main statement, with what follows for the trees of a source, all of which stand somewhere:
`location_of_failure`.
-/

namespace Scriptlet

open Source (Shaped)

/-- The location of the last node of a path that has one. -/
def nearest (path : List Node) : Option Location :=
  path.reverse.findSome? fun n => n.place.location

@[simp] theorem nearest_singleton (n : Node) : nearest [n] = n.place.location := by
  simp [nearest]

theorem nearest_cons (n : Node) (path : List Node) :
    nearest (n :: path) = (nearest path).or n.place.location := by
  rw [nearest, List.reverse_cons, List.findSome?_append]
  simp [nearest]

theorem nearest_eq_none {path : List Node} :
    nearest path = none ↔ ∀ n ∈ path, n.place.location = none := by
  simp [nearest]

section

variable (host : Host) (rounds : Nat)

/-- The nodes from one that is evaluated down to one that it comes to evaluate, outermost first. -/
inductive Trail : Node → State → List Node → Node → State → Prop where
  | here {n : Node} {s : State} : Trail n s [n] n s
  | into {n m k : Node} {s t u : State} {path : List Node} (h : Enters host rounds n s m t)
      (rest : Trail m t path k u) : Trail n s (n :: path) k u

/-- A node fails, and none that it enters does: the failure arises in the node itself. -/
structure Origin (n : Node) (s : State) (f : Failure) (t : State) : Prop where
  fails : eval host rounds n s = (.error (.failure f), t)
  own : ∀ m u, Enters host rounds n s m u → ∀ g v, eval host rounds m u ≠ (.error (.failure g), v)

end

section

variable {host : Host} {rounds : Nat} {n m : Node} {s t u : State} {path : List Node} {f : Failure}

theorem Trail.reaches (h : Trail host rounds n s path m t) : Reaches host rounds n s m t := by
  induction h with
  | here => exact .here
  | into he _ ih => exact .into he ih

/-- Every failure has an origin. -/
theorem origin_of_failure (h : eval host rounds n s = (.error (.failure f), t)) :
    ∃ path m u g, Trail host rounds n s path m u ∧ Origin host rounds m u g t := by
  induction n using operands_induction generalizing s f with
  | h n ih =>
    by_cases hinner : ∃ m u, Enters host rounds n s m u ∧
        ∃ g v, eval host rounds m u = (.error (.failure g), v)
    · obtain ⟨m, u, he, g, v, hm⟩ := hinner
      have hv : v = t := by
        have houter := fails_of_enters he (Run.ends_of_failure h) hm
        exact (Prod.mk.inj (houter.symm.trans h)).2
      subst hv
      obtain ⟨path, k, w, e, htrail, horigin⟩ := ih m (mem_operands_of_enters host rounds he) hm
      exact ⟨n :: path, k, w, e, .into he htrail, horigin⟩
    · refine ⟨[n], n, s, f, .here, h, fun m u he g v hm => ?_⟩
      exact hinner ⟨m, u, he, g, v, hm⟩

/-- Where a failure arises, the node raises it by a step of its own, without a location yet. -/
theorem raises_of_origin (h : Origin host rounds n s f t) :
    ∃ fault, f = (Failure.mk fault none).leaving n.place ∧ Raises host rounds n s fault t := by
  have hlands : (eval host rounds n).Lands s (fun _ _ => True)
      fun f u => ∃ g : Failure, f = g.leaving n.place ∧ g.location = none ∧
        Raises host rounds n s g.fault u := by
    have kept : Kept host (fun _ => True) fun _ => True := kept_of_events fun _ _ _ _ => trivial
    refine (lands_of_enters kept trivial (fun m u he _ => ?_)
      (fun _ _ _ _ _ _ _ _ _ _ => trivial) fun _ _ hraises _ =>
        ⟨rfl, hraises⟩).weaken fun _ _ _ _ => trivial
    have hm : (eval host rounds m).Lands u (fun _ _ => True) fun _ _ => True :=
      Run.lands_of_forall (fun _ _ => trivial) fun _ _ => trivial
    exact hm.mono (fun _ _ _ _ => ⟨trivial, trivial⟩) fun g v hg _ => absurd hg (h.own m u he g v)
  obtain ⟨⟨fault, location⟩, rfl, hnone, hraises⟩ := (Run.lands_of_failure h.fails).mp hlands
  cases hnone
  exact ⟨fault, rfl, hraises⟩

/-- Where a failure arises it has no location yet, so it takes that of the node if it takes any. -/
theorem eq_of_origin (h : Origin host rounds n s f t) (native : f.fault.isNative = true) :
    f = ⟨f.fault, n.place.location⟩ := by
  obtain ⟨fault, rfl, -⟩ := raises_of_origin h
  rw [fault_leaving] at native
  rw [leaving_of_native native, Option.none_or]

/-- A failure leaves the first node of a trail with the location that is nearest to its origin. -/
theorem failure_of_trail (h : Trail host rounds n s path m u) (hends : (eval host rounds n).Ends s)
    (origin : Origin host rounds m u f t) (native : f.fault.isNative = true) :
    eval host rounds n s = (.error (.failure ⟨f.fault, nearest path⟩), t) := by
  induction h with
  | here =>
    rw [nearest_singleton, ← eq_of_origin origin native]
    exact origin.fails
  | into he _ ih =>
    rw [fails_of_enters he hends (ih (ends_of_enters he hends) origin), leaving_of_native native,
      nearest_cons]

/-- A location that a failure has stays with it. -/
theorem location_of_trail (h : Trail host rounds n s path m u) (hends : (eval host rounds n).Ends s)
    {fault : Fault} {l : Location} (native : fault.isNative = true)
    (hm : eval host rounds m u = (.error (.failure ⟨fault, some l⟩), t)) :
    eval host rounds n s = (.error (.failure ⟨fault, some l⟩), t) := by
  induction h with
  | here => exact hm
  | into he _ ih =>
    rw [fails_of_enters he hends (ih (ends_of_enters he hends) hm), leaving_of_native native,
      Option.some_or]

theorem nearest_of_trail (h : Trail host rounds n s path m u) {l : Location}
    (hm : m.place.location = some l) : nearest path = some l := by
  induction h with
  | here => rw [nearest_singleton, hm]
  | into _ _ ih => rw [nearest_cons, ih hm, Option.some_or]

/-! ## Sources -/

theorem shaped_of_reaches (h : Reaches host rounds n s m t) (hn : ∀ k ∈ operands n, Shaped k) :
    m = n ∨ Shaped m := by
  induction h with
  | here => exact .inl rfl
  | into he _ ih =>
    have hk := hn _ (mem_operands_of_enters host rounds he)
    rcases ih (shaped_operands hk) with rfl | hm
    · exact .inr hk
    · exact .inr hm

theorem place_of_shaped (h : Shaped n) : ∃ l kids sp, n = .tree l kids (.span sp) := by
  cases h <;> exact ⟨_, _, _, rfl⟩

/-- A program that fails stands somewhere: only the empty one does not. -/
theorem place_of_program {source : String} {program : Source.Program}
    (hread : Source.read source = .ok program)
    (hfails : eval host rounds program.toNode s = (.error (.failure f), t)) :
    ∃ l kids sp, program.toNode = .tree l kids (.span sp) := by
  obtain ⟨kids, place, hnode⟩ : ∃ kids place, program.toNode = .tree .program kids place :=
    ⟨_, _, rfl⟩
  obtain ⟨pieces, last, -, hscans, hd⟩ := Source.pieces_of_read hread
  have hnested := Source.nested_of_derives (Source.placed_inOrder hscans.fits .start).1 hd .self
  rw [hnode] at hnested hfails ⊢
  rcases hnested with ⟨-, rfl⟩ | ⟨sp, -, rfl, -⟩
  · rw [eval, evalAll] at hfails
    cases hfails
  · exact ⟨_, _, sp, rfl⟩

/-- A node of a program that fails is a tree of its source, and stands where it begins there. -/
theorem beginsAt_of_reaches {source : String} {program : Source.Program}
    (hread : Source.read source = .ok program)
    (hreach : Reaches host rounds program.toNode s m u)
    (hfails : eval host rounds m u = (.error (.failure f), t)) :
    ∃ p, Source.BeginsAt source m p ∧ m.place.location = some ⟨p.line, some p.column⟩ := by
  obtain ⟨l, kids, sp, hm⟩ : ∃ l kids sp, m = .tree l kids (.span sp) := by
    rcases shaped_of_reaches hreach (Source.shaped_of_read hread) with hm | hshaped
    · rw [hm] at hfails ⊢
      exact place_of_program hread hfails
    · exact place_of_shaped hshaped
  have hin := inside_of_reaches hreach
  subst hm
  exact ⟨sp.first, Source.beginsAt_of_inside hread hin, rfl⟩

/-- A failure that is one of the language, of any tree whatever, arises in a node that fails though
none that it enters does, and all its origins are of one fault and state. Its location is that of
the innermost node on the trail to its origin that has one, and it has none only if no node there
has; each node on the trail fails with the location that is nearest to it by then, which no node
further out replaces. In a tree that was read from a source, the location is where the origin begins
in the source, by line and column. -/
theorem location_of_failure (hfails : eval host rounds n s = (.error (.failure f), t))
    (native : f.fault.isNative = true) :
    (∃ path m u g, Trail host rounds n s path m u ∧ Origin host rounds m u g t) ∧
      (∀ path m u g v, Trail host rounds n s path m u → Origin host rounds m u g v →
        g.fault = f.fault ∧ v = t ∧ f.location = nearest path ∧
          (f.location = none → ∀ k ∈ path, k.place.location = none) ∧
          ∀ source program, Source.read source = .ok program → n = program.toNode →
            ∃ p, Source.BeginsAt source m p ∧ f.location = some ⟨p.line, some p.column⟩) ∧
      ∀ outer k u inner m v g w, Trail host rounds n s outer k u →
        Trail host rounds k u inner m v → Origin host rounds m v g w →
          eval host rounds k u = (.error (.failure ⟨f.fault, nearest inner⟩), t) ∧
            ∀ l, nearest inner = some l → f.location = some l := by
  have hends := Run.ends_of_failure hfails
  have hsame : ∀ {m u g v}, Reaches host rounds n s m u → Origin host rounds m u g v →
      g.fault = f.fault ∧ v = t := by
    intro m u g v hreach horigin
    obtain ⟨e, hfault, he⟩ := fails_of_reaches hreach hends horigin.fails
    rw [hfails] at he
    cases he
    exact ⟨hfault.symm, rfl⟩
  refine ⟨origin_of_failure hfails, ?_, ?_⟩
  · intro path m u g v htrail horigin
    obtain ⟨hfault, rfl⟩ := hsame htrail.reaches horigin
    have hn := failure_of_trail htrail hends horigin (hfault ▸ native)
    have hlocation : f.location = nearest path := by
      rw [hfails] at hn
      cases hn
      rfl
    refine ⟨hfault, rfl, hlocation, ?_, ?_⟩
    · rw [hlocation]
      exact nearest_eq_none.mp
    · rintro source program hread rfl
      obtain ⟨p, hp, hplace⟩ := beginsAt_of_reaches hread htrail.reaches horigin.fails
      exact ⟨p, hp, hlocation.trans (nearest_of_trail htrail hplace)⟩
  · intro outer k u inner m v g w houter hinner horigin
    obtain ⟨hfault, rfl⟩ := hsame (houter.reaches.trans hinner.reaches) horigin
    have hk := failure_of_trail hinner (ends_of_reaches houter.reaches hends) horigin
      (hfault ▸ native)
    rw [hfault] at hk
    refine ⟨hk, fun l hl => ?_⟩
    rw [hl] at hk
    have hn := location_of_trail houter hends native hk
    have hf : f = ⟨f.fault, some l⟩ := by
      rw [hfails] at hn
      exact Stop.failure.inj (Except.error.inj (Prod.mk.inj hn).1)
    rw [hf]

/-- A division by zero in the operand of a negation on the second line: the trail to it goes through
the assignment and the negation, and it is the division that gives the location. -/
theorem location_of_failure_division :
    ∃ program f t, Source.read "x = 1\ny = -(x / 0)" = .ok program ∧
      eval .standard 1 program.toNode ⟨.empty, []⟩ = (.error (.failure f), t) ∧
      f.fault.isNative = true ∧ f.message = "Integer division by zero (line 2, col 7)" ∧
      ∃ path m u g p, Trail .standard 1 program.toNode ⟨.empty, []⟩ path m u ∧
        Origin .standard 1 m u g t ∧ g.fault = f.fault ∧ f.location = nearest path ∧
        Source.BeginsAt "x = 1\ny = -(x / 0)" m p ∧ f.location = some ⟨p.line, some p.column⟩ := by
  have hrun : ((Source.read "x = 1\ny = -(x / 0)").toOption.bind fun program =>
      (eval .standard 1 program.toNode).failure? ⟨.empty, []⟩).map
        (fun f => (f.fault.isNative, f.message)) =
          some (true, "Integer division by zero (line 2, col 7)") := by
    decide +kernel
  obtain ⟨f, hbind, hf⟩ := Option.map_eq_some_iff.mp hrun
  obtain ⟨program, hprogram, hfailure⟩ := Option.bind_eq_some_iff.mp hbind
  obtain ⟨native, hmessage⟩ := Prod.mk.inj hf
  obtain ⟨t, hfails⟩ := Run.eq_of_failure? hfailure
  have hread : Source.read "x = 1\ny = -(x / 0)" = .ok program := by
    cases h : Source.read "x = 1\ny = -(x / 0)" with
    | ok q =>
      rw [h] at hprogram
      rw [Option.some.inj hprogram]
    | error e =>
      rw [h] at hprogram
      cases hprogram
  obtain ⟨⟨path, m, u, g, htrail, horigin⟩, hall, -⟩ := location_of_failure hfails native
  obtain ⟨hfault, -, hlocation, -, hsource⟩ := hall path m u g t htrail horigin
  obtain ⟨p, hp, hplace⟩ := hsource _ program hread rfl
  exact ⟨program, f, t, hread, hfails, native, hmessage, path, m, u, g, p, htrail, horigin, hfault,
    hlocation, hp, hplace⟩

end

end Scriptlet
