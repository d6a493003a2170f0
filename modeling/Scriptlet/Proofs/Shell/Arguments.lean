import Mathlib.Data.List.Induction
import Scriptlet.Shell.CommandLine
/-!
# Arguments

Options may stand anywhere. The arguments spell items in one way only (`spells_iff`), and the
options are those that the items ask for as a whole (`Options.ofItems`), as long as there is one
source at most and no option without its path. Main statement: the first item that offends against
this is what the program gives up with, and arguments whose items differ in their order alone, but
not in that of the grammars, call for the same (`call_of_arguments`).
-/

namespace Scriptlet.Shell

/-! ## Spelling -/

def IsOption (arg : String) : Prop :=
  arg ∈ ["-v", "--verbose", "--repl", "--grammar"] ∨ ∃ path, arg = "--grammar=" ++ path

/-- The items that arguments spell. Whatever comes behind a bare option for a grammar is its path,
even if it would be an option elsewhere. -/
inductive Spells : List String → List Item → Prop where
  | done : Spells [] []
  | verbose {arg : String} {args : List String} {items : List Item} :
      arg = "-v" ∨ arg = "--verbose" → Spells args items →
        Spells (arg :: args) (.verbose :: items)
  | interactive {args : List String} {items : List Item} :
      Spells args items → Spells ("--repl" :: args) (.interactive :: items)
  | assigned {path : String} {args : List String} {items : List Item} :
      Spells args items → Spells (("--grammar=" ++ path) :: args) (.grammar path :: items)
  | pair {path : String} {args : List String} {items : List Item} :
      Spells args items → Spells ("--grammar" :: path :: args) (.grammar path :: items)
  | bare : Spells ["--grammar"] [.bareGrammar]
  | positional {arg : String} {args : List String} {items : List Item} :
      ¬ IsOption arg → Spells args items → Spells (arg :: args) (.positional arg :: items)

theorem assigned_isPrefixOf_iff {arg : String} :
    (Item.grammarOption ++ "=").toList.isPrefixOf arg.toList ↔
      ∃ path, arg = "--grammar=" ++ path := by
  rw [show Item.grammarOption ++ "=" = "--grammar=" from rfl, List.isPrefixOf_iff_prefix]
  constructor
  · rintro ⟨path, h⟩
    refine ⟨String.ofList path, String.toList_inj.mp ?_⟩
    rw [String.toList_append, ← h]
    exact congrArg _ String.toList_ofList.symm
  · rintro ⟨path, rfl⟩
    exact ⟨path.toList, String.toList_append.symm⟩

/-- No option is another with a path assigned. -/
theorem ne_assigned (path : String) :
    ∀ arg ∈ ["-v", "--verbose", "--repl", "--grammar"], "--grammar=" ++ path ≠ arg := by
  intro arg hmem h
  have hlists : ∀ arg ∈ ["-v", "--verbose", "--repl", "--grammar"],
      ¬ "--grammar=".toList <+: arg.toList := by decide
  exact hlists arg hmem ⟨path.toList, by rw [← String.toList_append, h]⟩

theorem ofArg_assigned (path : String) : Item.ofArg ("--grammar=" ++ path) = .grammar path := by
  have hne := ne_assigned path
  have hdrop : ("--grammar=" ++ path).toList.drop (Item.grammarOption ++ "=").toList.length =
      path.toList := by
    rw [show Item.grammarOption ++ "=" = "--grammar=" from rfl, String.toList_append]
    exact List.drop_left
  rw [Item.ofArg, if_neg (by simp_all), if_neg (by simp_all),
    if_pos (assigned_isPrefixOf_iff.mpr ⟨path, rfl⟩), hdrop, String.ofList_toList]

theorem ofArg_positional {arg : String} (h : ¬ IsOption arg) :
    Item.ofArg arg = .positional arg := by
  rw [IsOption, not_or] at h
  rw [Item.ofArg, if_neg (by simp_all), if_neg (by simp_all), if_neg]
  exact fun hassigned => h.2 (assigned_isPrefixOf_iff.mp hassigned)

/-- An argument that stands for itself. -/
theorem ofArgs_cons {arg : String} (h : arg ≠ "--grammar") (args : List String) :
    Item.ofArgs (arg :: args) = Item.ofArg arg :: Item.ofArgs args := by
  cases args with
  | nil => rw [Item.ofArgs, Item.ofArgs, Item.grammarOption, if_neg h]
  | cons next args => rw [Item.ofArgs, Item.grammarOption, if_neg h]

theorem ofArgs_of_spells {args : List String} {items : List Item} (h : Spells args items) :
    Item.ofArgs args = items := by
  induction h with
  | done => rfl
  | verbose harg _ ih => rcases harg with rfl | rfl <;> rw [ofArgs_cons (by decide), ih] <;> rfl
  | interactive _ ih => rw [ofArgs_cons (by decide), ih]; rfl
  | assigned _ ih => rw [ofArgs_cons (ne_assigned _ _ (by simp)), ofArg_assigned, ih]
  | pair _ ih => rw [Item.ofArgs, Item.grammarOption, if_pos rfl, ih]
  | bare => rfl
  | positional harg _ ih =>
    rw [ofArgs_cons (fun h => harg (.inl (by simp [h]))), ofArg_positional harg, ih]

/-- One more argument that stands for itself. -/
theorem Spells.cons {arg : String} {args : List String} {items : List Item}
    (harg : arg ≠ "--grammar") (h : Spells args items) :
    Spells (arg :: args) (Item.ofArg arg :: items) := by
  by_cases hoption : IsOption arg
  · obtain hword | ⟨path, rfl⟩ := hoption
    · simp only [List.mem_cons, List.not_mem_nil, or_false] at hword
      obtain rfl | rfl | rfl | rfl := hword
      · exact .verbose (.inl rfl) h
      · exact .verbose (.inr rfl) h
      · exact .interactive h
      · exact absurd rfl harg
    · rw [ofArg_assigned]
      exact .assigned h
  · rw [ofArg_positional hoption]
    exact .positional hoption h

theorem spells_ofArgs (args : List String) : Spells args (Item.ofArgs args) := by
  induction args using Item.ofArgs.induct with
  | case1 => exact .done
  | case2 arg =>
    by_cases harg : arg = "--grammar"
    · subst harg
      exact .bare
    · rw [ofArgs_cons harg]
      exact .cons harg .done
  | case3 path args ih =>
    rw [Item.ofArgs, if_pos rfl]
    exact .pair ih
  | case4 arg path args harg ih =>
    rw [ofArgs_cons harg]
    exact .cons harg ih

theorem spells_iff {args : List String} {items : List Item} :
    Spells args items ↔ items = Item.ofArgs args :=
  ⟨fun h => (ofArgs_of_spells h).symm, fun h => h ▸ spells_ofArgs args⟩

/-- Other items in front leave an option without its path where it is. -/
theorem getLast?_cons_of_bare {item : Item} {items : List Item} (hitem : item ≠ .bareGrammar)
    (hlast : .bareGrammar ∈ items → items.getLast? = some .bareGrammar)
    (hmem : .bareGrammar ∈ item :: items) : (item :: items).getLast? = some .bareGrammar := by
  have hrest := (List.mem_cons.mp hmem).resolve_left hitem.symm
  rw [List.getLast?_cons, hlast hrest]
  rfl

/-- Only the last argument can be an option without its path. -/
theorem Spells.bareGrammar_mem_iff {args : List String} {items : List Item}
    (h : Spells args items) : .bareGrammar ∈ items ↔ items.getLast? = some .bareGrammar := by
  refine ⟨fun hmem => ?_, List.mem_of_getLast?⟩
  induction h with
  | done => exact absurd hmem List.not_mem_nil
  | bare => rfl
  | verbose _ _ ih | interactive _ ih | assigned _ ih | pair _ ih | positional _ _ ih =>
    exact getLast?_cons_of_bare (by simp) ih hmem

/-! ## What items ask for -/

def Item.source? : Item → Option String
  | .positional arg => some arg
  | _ => none

def Item.path? : Item → Option String
  | .grammar path => some path
  | _ => none

def positionals (items : List Item) : List String :=
  items.filterMap Item.source?

def grammars (items : List Item) : List String :=
  items.filterMap Item.path?

def Options.ofItems (items : List Item) : Options where
  verbose := .verbose ∈ items
  interactive := .interactive ∈ items
  grammar := (grammars items).getLast?
  source := (positionals items).head?

/-- Items that can be met together. -/
structure Accepted (items : List Item) : Prop where
  paths : .bareGrammar ∉ items
  source : (positionals items).length ≤ 1

/-- The items that cannot be met behind others, and what the program says of them. -/
inductive Offends (before : List Item) : Item → String → Prop where
  | unexpected {first arg : String} :
      .positional first ∈ before → Offends before (.positional arg) ("Unexpected argument: " ++ arg)
  | noPath : Offends before .bareGrammar "--grammar flag requires a path"

/-- What the program says of the first item that cannot be met. -/
def Rejected (items : List Item) (text : String) : Prop :=
  ∃ before item after,
    items = before ++ item :: after ∧ Accepted before ∧ Offends before item text

variable {items before : List Item} {item : Item} {text : String}

theorem positionals_concat (items : List Item) (item : Item) :
    positionals (items ++ [item]) = positionals items ++ item.source?.toList := by
  rw [positionals, List.filterMap_append]
  cases item <;> rfl

theorem grammars_concat (items : List Item) (item : Item) :
    grammars (items ++ [item]) = grammars items ++ item.path?.toList := by
  rw [grammars, List.filterMap_append]
  cases item <;> rfl

/-- What one more item adds to the options. -/
theorem ofItems_concat (items : List Item) (item : Item) :
    Options.ofItems (items ++ [item]) =
      ⟨(Options.ofItems items).verbose || item = .verbose,
        (Options.ofItems items).interactive || item = .interactive,
        item.path?.or (Options.ofItems items).grammar,
        (Options.ofItems items).source.or item.source?⟩ := by
  have hgrammar :
      (grammars (items ++ [item])).getLast? = item.path?.or (grammars items).getLast? := by
    rw [grammars_concat, List.getLast?_append]
    cases item.path? <;> rfl
  have hsource :
      (positionals (items ++ [item])).head? = (positionals items).head?.or item.source? := by
    rw [positionals_concat, List.head?_append]
    cases item.source? <;> rfl
  simp [Options.ofItems, hgrammar, hsource, eq_comm]

theorem mem_positionals {arg : String} : arg ∈ positionals items ↔ .positional arg ∈ items := by
  rw [positionals, List.mem_filterMap]
  constructor
  · rintro ⟨item, hmem, hitem⟩
    cases item <;> simp_all [Item.source?]
  · exact fun hmem => ⟨_, hmem, rfl⟩

theorem Accepted.front {after : List Item} (h : Accepted (before ++ after)) : Accepted before where
  paths := fun hmem => h.paths (List.mem_append_left _ hmem)
  source := by
    have hsource := h.source
    rw [positionals, List.filterMap_append, List.length_append] at hsource
    exact Nat.le_trans (Nat.le_add_right _ _) hsource

theorem accepted_concat_iff :
    Accepted (before ++ [item]) ↔
      Accepted before ∧ item ≠ .bareGrammar ∧ (item.source?.isSome → positionals before = []) := by
  constructor
  · intro h
    refine ⟨h.front, fun hitem => h.paths (by simp [hitem]), fun hsome => ?_⟩
    obtain ⟨arg, harg⟩ := Option.isSome_iff_exists.mp hsome
    have hsource := h.source
    rw [positionals_concat, harg, List.length_append] at hsource
    exact List.eq_nil_of_length_eq_zero (Nat.le_zero.mp (Nat.le_of_succ_le_succ hsource))
  · rintro ⟨h, hbare, hsource⟩
    refine ⟨by simp [h.paths, hbare.symm], ?_⟩
    rw [positionals_concat]
    cases hitem : item.source? with
    | none => simpa using h.source
    | some arg => simp [hsource (by rw [hitem]; rfl)]

theorem Accepted.of_perm {items' : List Item} (h : Accepted items) (hperm : items'.Perm items) :
    Accepted items' where
  paths := fun hmem => h.paths (hperm.mem_iff.mp hmem)
  source := (hperm.filterMap Item.source?).length_eq ▸ h.source

/-- One source at most comes to the same in any order. -/
theorem positionals_of_perm {items' : List Item} (h : Accepted items) (hperm : items'.Perm items) :
    positionals items' = positionals items := by
  have hpositionals : (positionals items').Perm (positionals items) :=
    hperm.filterMap Item.source?
  have hsource := h.source
  match hitems : positionals items with
  | [] => exact List.perm_nil.mp (hitems ▸ hpositionals)
  | [arg] => exact List.perm_singleton.mp (hitems ▸ hpositionals)
  | _ :: _ :: _ =>
    rw [hitems] at hsource
    exact absurd (Nat.le_of_succ_le_succ hsource) (Nat.not_succ_le_zero _)

theorem ofItems_of_perm {items' : List Item} (h : Accepted items) (hperm : items'.Perm items)
    (hgrammars : grammars items' = grammars items) :
    Options.ofItems items' = Options.ofItems items := by
  simp only [Options.ofItems, positionals_of_perm h hperm, hgrammars, hperm.mem_iff]

/-! ## Item by item -/

theorem accepted_or_offends (h : Accepted before) (item : Item) :
    Accepted (before ++ [item]) ∨ ∃ text, Offends before item text := by
  cases item with
  | verbose | interactive | grammar =>
    exact .inl (accepted_concat_iff.mpr ⟨h, by simp, by simp [Item.source?]⟩)
  | bareGrammar => exact .inr ⟨_, .noPath⟩
  | positional arg =>
    cases hbefore : positionals before with
    | nil => exact .inl (accepted_concat_iff.mpr ⟨h, by simp, fun _ => hbefore⟩)
    | cons first rest =>
      exact .inr ⟨_, .unexpected (mem_positionals.mp (hbefore ▸ List.mem_cons_self))⟩

/-- Taking one more item keeps the options those that all the items so far ask for. -/
theorem take_of_accepted (h : Accepted (before ++ [item])) :
    (Options.ofItems before).take item = .ok (.ofItems (before ++ [item])) := by
  obtain ⟨-, hbare, hsource⟩ := accepted_concat_iff.mp h
  rw [ofItems_concat]
  cases item with
  | verbose | interactive | grammar =>
    simp [Options.take, Item.path?, Item.source?]
  | bareGrammar => exact absurd rfl hbare
  | positional arg =>
    have hnone : (Options.ofItems before).source = none := congrArg List.head? (hsource rfl)
    simp [Options.take, Item.path?, Item.source?, hnone]

theorem take_of_offends (h : Offends before item text) :
    ∃ e : UsageError, e.message = text ∧ (Options.ofItems before).take item = .error e := by
  cases h with
  | @unexpected first arg hfirst =>
    refine ⟨.unexpected arg, rfl, ?_⟩
    obtain ⟨source, hsource⟩ : ∃ source, (Options.ofItems before).source = some source := by
      cases hbefore : positionals before with
      | nil => exact absurd (hbefore ▸ mem_positionals.mpr hfirst) List.not_mem_nil
      | cons source rest => exact ⟨source, congrArg List.head? hbefore⟩
    rw [Options.take, hsource]
  | noPath => exact ⟨.noGrammarPath, rfl, rfl⟩

/-! ## All items -/

theorem foldlM_take_of_accepted (h : Accepted items) :
    items.foldlM Options.take .none = .ok (.ofItems items) := by
  -- The list grows at its end, as the loop goes: the options so far are those of the items so far.
  induction items using List.reverseRecOn with
  | nil => rfl
  | append_singleton before item ih =>
    rw [List.foldlM_append, ih h.front]
    show (Options.ofItems before).take item >>= pure = _
    rw [bind_pure, take_of_accepted h]

theorem foldlM_take_of_rejected (h : Rejected items text) :
    ∃ e : UsageError, e.message = text ∧ items.foldlM Options.take .none = .error e := by
  obtain ⟨before, item, after, rfl, haccepted, hoffends⟩ := h
  obtain ⟨e, hmessage, htake⟩ := take_of_offends hoffends
  refine ⟨e, hmessage, ?_⟩
  rw [List.foldlM_append, foldlM_take_of_accepted haccepted]
  show ((Options.ofItems before).take item >>= fun o => after.foldlM Options.take o) = _
  rw [htake]
  rfl

theorem accepted_or_rejected (items : List Item) :
    Accepted items ∨ ∃ text, Rejected items text := by
  induction items using List.reverseRecOn with
  | nil => exact .inl ⟨List.not_mem_nil, Nat.zero_le 1⟩
  | append_singleton before item ih =>
    obtain haccepted | ⟨text, front, first, after, rfl, hrejected⟩ := ih
    · obtain hmore | ⟨text, hoffends⟩ := accepted_or_offends haccepted item
      · exact .inl hmore
      · exact .inr ⟨text, before, item, [], rfl, haccepted, hoffends⟩
    · exact .inr ⟨text, front, first, after ++ [item], by simp, hrejected⟩

theorem rejected_iff : (∃ text, Rejected items text) ↔ ¬ Accepted items := by
  refine ⟨?_, (accepted_or_rejected items).resolve_left⟩
  rintro ⟨text, hrejected⟩ haccepted
  obtain ⟨e, -, herror⟩ := foldlM_take_of_rejected hrejected
  rw [foldlM_take_of_accepted haccepted] at herror
  exact nomatch herror

theorem not_accepted_iff :
    ¬ Accepted items ↔ .bareGrammar ∈ items ∨ 2 ≤ (positionals items).length := by
  constructor
  · intro h
    by_cases hbare : .bareGrammar ∈ items
    · exact .inl hbare
    · exact .inr (Nat.lt_of_not_le fun hsource => h ⟨hbare, hsource⟩)
  · rintro (hbare | hmany) h
    · exact h.paths hbare
    · exact absurd h.source (Nat.not_le_of_lt hmany)

theorem ofArgs_eq_ok_iff {args : List String} {o : Options} :
    Options.ofArgs args = .ok o ↔
      Accepted (Item.ofArgs args) ∧ o = .ofItems (Item.ofArgs args) := by
  rw [Options.ofArgs]
  constructor
  · intro ho
    obtain haccepted | ⟨text, hrejected⟩ := accepted_or_rejected (Item.ofArgs args)
    · rw [foldlM_take_of_accepted haccepted] at ho
      exact ⟨haccepted, (Except.ok.inj ho).symm⟩
    · obtain ⟨e, -, herror⟩ := foldlM_take_of_rejected hrejected
      exact nomatch herror.symm.trans ho
  · rintro ⟨haccepted, rfl⟩
    exact foldlM_take_of_accepted haccepted

theorem message_iff_rejected {args : List String} :
    (Options.ofArgs args).mapError UsageError.message = .error text ↔
      Rejected (Item.ofArgs args) text := by
  constructor
  · intro h
    obtain haccepted | ⟨text', hrejected⟩ := accepted_or_rejected (Item.ofArgs args)
    · rw [ofArgs_eq_ok_iff.mpr ⟨haccepted, rfl⟩] at h
      exact nomatch h
    · obtain ⟨e, hmessage, herror⟩ := foldlM_take_of_rejected hrejected
      rw [Options.ofArgs, herror] at h
      rwa [← Except.error.inj h, hmessage]
  · intro hrejected
    obtain ⟨e, hmessage, herror⟩ := foldlM_take_of_rejected hrejected
    rw [Options.ofArgs, herror, Except.mapError, hmessage]

/-! ## The call -/

/-- A call depends on its arguments through the options they give. -/
theorem call_eq_of_options {args args' : List String}
    (h : Options.ofArgs args' = Options.ofArgs args) (work : Workspace) (s : Surroundings)
    (m : Machine) : call work args' s m = call work args s m := by
  rw [call, call, task, task, h]

theorem call_of_message {args : List String}
    (h : (Options.ofArgs args).mapError UsageError.message = .error text) (work : Workspace)
    (s : Surroundings) (m : Machine) :
    call work args s m = .plain (.message text) .nothing work.env := by
  have htask : task work args s m = .error (.message text) := by
    rw [task]
    cases hargs : Options.ofArgs args with
    | ok o =>
      rw [hargs] at h
      cases h
    | error e =>
      rw [hargs] at h
      cases h
      rfl
  rw [call, htask]

/-- Arguments spell items in one way. They are rejected with the message of the first item that
cannot be met, before anything is written or run; there is one exactly if an option at the end lacks
its path or there is a second source. Otherwise the options are those that all the items ask for,
and arguments that spell the same items in another order, with the grammars in the same, call for
the same. -/
theorem call_of_arguments (args : List String) :
    ∃ items, (∀ items', Spells args items' ↔ items' = items) ∧
      (∀ text, (Options.ofArgs args).mapError UsageError.message = .error text ↔
        Rejected items text) ∧
      ((∃ text, Rejected items text) ↔
        items.getLast? = some .bareGrammar ∨ 2 ≤ (positionals items).length) ∧
      (∀ text work s m, Rejected items text →
        call work args s m = .plain (.message text) .nothing work.env) ∧
      (∀ o, Options.ofArgs args = .ok o ↔ Accepted items ∧ o = .ofItems items) ∧
      ∀ args' items', Spells args' items' → Accepted items → items'.Perm items →
        grammars items' = grammars items →
          Options.ofArgs args' = Options.ofArgs args ∧
            ∀ work s m, call work args' s m = call work args s m := by
  refine ⟨Item.ofArgs args, fun _ => spells_iff, fun _ => message_iff_rejected, ?_, ?_,
    fun _ => ofArgs_eq_ok_iff, ?_⟩
  · rw [rejected_iff, not_accepted_iff, (spells_ofArgs args).bareGrammar_mem_iff]
  · intro text work s m hrejected
    exact call_of_message (message_iff_rejected.mpr hrejected) work s m
  · rintro args' items' hspells haccepted hperm hgrammars
    obtain rfl := spells_iff.mp hspells
    have hoptions : Options.ofArgs args' = Options.ofArgs args := by
      rw [ofArgs_eq_ok_iff.mpr ⟨haccepted, rfl⟩,
        ofArgs_eq_ok_iff.mpr ⟨haccepted.of_perm hperm, rfl⟩,
        ofItems_of_perm haccepted hperm hgrammars]
    exact ⟨hoptions, call_eq_of_options hoptions⟩

/-- A path that looks like an option, options on both sides of the source, and a second source. -/
theorem call_of_arguments_shuffled :
    let args := ["--grammar", "-v", "x = 1", "--grammar=g", "--repl"]
    let args' := ["--repl", "--grammar=-v", "--grammar", "g", "x = 1"]
    let twice := ["x = 1", "-v", "y = 2", "--grammar"]
    let items : List Item := [.grammar "-v", .positional "x = 1", .grammar "g", .interactive]
    let items' : List Item := [.interactive, .grammar "-v", .grammar "g", .positional "x = 1"]
    let s : Surroundings := ⟨fun _ => none, "", none, false, []⟩
    Spells args items ∧ Spells args' items' ∧ Accepted items ∧ items'.Perm items ∧
      grammars items' = grammars items ∧
      Options.ofArgs args' = .ok ⟨false, true, some "g", some "x = 1"⟩ ∧
      call .standard args' s = call .standard args s ∧
      Rejected (Item.ofArgs twice) "Unexpected argument: y = 2" ∧
      call .standard twice s =
        .plain (.message "Unexpected argument: y = 2") .nothing Workspace.standard.env := by
  intro args args' twice items items' s
  have hspells : Spells args items := spells_iff.mpr (by decide +kernel)
  have hspells' : Spells args' items' := spells_iff.mpr (by decide +kernel)
  have haccepted : Accepted items := ⟨by decide, by decide⟩
  have hperm : items'.Perm items := by decide
  have hrejected : Rejected (Item.ofArgs twice) "Unexpected argument: y = 2" :=
    ⟨[.positional "x = 1", .verbose], .positional "y = 2", [.bareGrammar], by decide +kernel,
      ⟨by decide, by decide⟩, .unexpected List.mem_cons_self⟩
  obtain ⟨_, honly, -, -, -, hoptions, hshuffled⟩ := call_of_arguments args
  obtain rfl := (honly items).mp hspells
  obtain ⟨hsame, hcall⟩ := hshuffled args' items' hspells' haccepted hperm rfl
  obtain ⟨_, honly, -, -, hrejects, -⟩ := call_of_arguments twice
  obtain rfl := (honly _).mp (spells_ofArgs twice)
  exact ⟨hspells, hspells', haccepted, hperm, rfl,
    hsame.trans ((hoptions _).mpr ⟨haccepted, by decide⟩), hcall .standard s .usual, hrejected,
    hrejects _ .standard s .usual hrejected⟩

end Scriptlet.Shell
