import ApiRecords.Proofs.Members
import ApiRecords.Proofs.Outcome
import ApiRecords.Settings

/-!
Settings loaded from a mapping. They are the defaults with the values given for the settings over them, unless
a key reaches further than a setting: a few keys are refused, one hides the export, and the one that stands for
the settings as a whole takes back what was given before it. Settings that were exported are loaded as they
were.
-/

namespace ApiRecords

namespace Setting

variable {x : Setting} {s : String}

theorem mem_all (x : Setting) : x ∈ all := by cases x <;> decide

theorem nodup_keys : (all.map key).Nodup := by decide

theorem key_injective : Function.Injective key := by
  intro x y h
  exact Option.some.inj ((ofKey?_key x).symm.trans ((congrArg ofKey? h).trans (ofKey?_key y)))

theorem key_of_ofKey? (h : ofKey? s = some x) : x.key = s := by
  simpa using List.find?_some h

theorem ofKey?_eq_none (h : ofKey? s = none) (x : Setting) : x.key ≠ s := by
  rintro rfl
  cases (ofKey?_key x).symm.trans h

end Setting

namespace Settings

variable {s t : Settings}

theorem eq_of_get (h : ∀ x, s.get x = t.get x) : s = t := by
  cases s
  cases t
  simp only [mk.injEq]
  exact ⟨h .isV2, h .useFlow, h .usePropTypes, h .attributeCase, h .templateFolder, h .withDate,
    h .fileExtension⟩

/-- What a mapping has for a setting, or its default. -/
def given (members : List (String × Tree)) (x : Setting) : Tree :=
  (members.lookup x.key).getD (({} : Settings).get x)

/-- The default settings, each with the value of a mapping over it where the mapping has one. -/
def overDefaults (members : List (String × Tree)) : Tree :=
  .object (Setting.all.map fun x => (x.key, given members x))

theorem keys_members (s : Settings) : s.members.map Prod.fst = Setting.all.map Setting.key := by
  simp [members, Function.comp_def]

theorem given_members (s : Settings) (x : Setting) : given s.members x = s.get x := by
  have hmem : (x.key, s.get x) ∈ s.members := List.mem_map_of_mem (Setting.mem_all x)
  have hnodup : (s.members.map Prod.fst).Nodup := s.keys_members ▸ Setting.nodup_keys
  rw [given, lookup_of_mem hnodup hmem, Option.getD_some]

theorem members_eq_iff {members : List (String × Tree)} :
    Tree.object s.members = overDefaults members ↔ ∀ x, s.get x = given members x := by
  rw [overDefaults, Settings.members, Tree.object.injEq, List.map_inj_left]
  simp [Setting.mem_all]

/-- Whether a value is the name of a case. -/
def NamesCase (t : Tree) : Prop := ∃ c : Case, t = .text c.name

theorem case_ok_of_namesCase (h : NamesCase s.attributeCase) : ∃ c, s.case = .ok c := by
  obtain ⟨c, hc⟩ := h
  exact ⟨c, by simp [Settings.case, hc]⟩

end Settings

namespace SettingsDraft

variable {d d' : SettingsDraft} {key : String} {value : Tree} {found members : List (String × Tree)}
  {m : String × Tree}

/-- The members that count once one more is given. -/
def count (found : List (String × Tree)) : String × Tree → List (String × Tree)
  | (key, .object inner) =>
    if key = wholeKey then putMembers [] inner else putMember key (.object inner) found
  | (key, value) => putMember key value found

/-- The members of a mapping that count: those of a mapping given for the settings as a whole take the place
of all before it. -/
def counted (members : List (String × Tree)) : List (String × Tree) := members.foldl count []

/-- Whether a member can be given at all. -/
structure Accepted (m : String × Tree) : Prop where
  fixed : m.1 ∉ fixedKeys
  make : m.1 ≠ makeKey
  whole : m.1 = wholeKey → ∃ inner, m.2 = .object inner

/-- Whether no member of a mapping does more than give its setting. -/
structure Undisturbed (members : List (String × Tree)) : Prop where
  accepted : ∀ m ∈ members, Accepted m
  exported : (counted members).lookup exportKey = none
  kept : ∀ x, Settings.given (counted members) x = Settings.given members x

/-- Whether a draft holds what is counted. -/
structure Reads (d : SettingsDraft) (found : List (String × Tree)) : Prop where
  get : ∀ x, d.settings.get x = Settings.given found x
  hidden : d.exportHidden = (found.lookup exportKey).isSome

theorem count_of_ne (h : key ≠ wholeKey) (value : Tree) (found : List (String × Tree)) :
    count found (key, value) = putMember key value found := by
  cases value with
  | object inner => rw [count, if_neg h]
  | scalar s => rfl
  | array items => rfl
  | back levels => rfl

/-- The keys that reach further than one setting. -/
def reservedKeys : List String := fixedKeys ++ [makeKey, wholeKey, exportKey]

theorem key_notMem_reservedKeys (x : Setting) : x.key ∉ reservedKeys := by cases x <;> decide

theorem exportKey_ne (x : Setting) : x.key ≠ exportKey := fun h =>
  key_notMem_reservedKeys x (h ▸ by decide)

/-! ### One member -/

theorem reads_fresh : Reads fresh [] := ⟨fun _ => rfl, rfl⟩

/-- A member that is passed over, too, may be counted. -/
theorem Reads.overlay (h : Reads d found) (key : String) (value : Tree) :
    Reads (d.overlay key value) (putMember key value found) := by
  unfold SettingsDraft.overlay
  cases hkey : Setting.ofKey? key with
  | some x =>
    obtain rfl := Setting.key_of_ofKey? hkey
    refine ⟨fun y => ?_, ?_⟩
    · by_cases hxy : y = x
      · subst hxy
        simp [Settings.given]
      · have hne : y.key ≠ x.key := fun e => hxy (Setting.key_injective e)
        simpa [Settings.given, Settings.get_set_of_ne hxy, lookup_putMember_of_ne hne] using h.get y
    · simpa [lookup_putMember_of_ne (exportKey_ne x).symm] using h.hidden
  | none =>
    have hget : ∀ x, d.settings.get x = Settings.given (putMember key value found) x := fun x => by
      rw [Settings.given, lookup_putMember_of_ne (Setting.ofKey?_eq_none hkey x)]
      exact h.get x
    by_cases hexport : key = exportKey
    · subst hexport
      exact ⟨hget, by simp⟩
    · refine ⟨by simpa [hexport] using hget, ?_⟩
      simpa [hexport, lookup_putMember_of_ne (Ne.symm hexport)] using h.hidden

theorem Reads.overlays (h : Reads d found) (members : List (String × Tree)) :
    Reads (members.foldl (fun d (key, value) => d.overlay key value) d) (putMembers found members) := by
  induction members generalizing d found with
  | nil => exact h
  | cons m members ih => exact ih (h.overlay m.1 m.2)

theorem accepted_of_assign (h : d.assign m.1 m.2 = .ok d') : Accepted m := by
  unfold SettingsDraft.assign at h
  split at h
  · cases h
  · rename_i hfixed
    split at h
    · cases h
    · rename_i hmake
      refine ⟨hfixed, hmake, fun hwhole => ?_⟩
      rw [if_pos hwhole] at h
      split at h
      · rename_i inner hinner
        exact ⟨inner, hinner⟩
      · cases h

/-- A member that is accepted can be given, and leaves what counts then. -/
theorem Reads.assign (h : Reads d found) (hm : Accepted m) :
    ∃ d', d.assign m.1 m.2 = .ok d' ∧ Reads d' (count found m) := by
  obtain ⟨key, value⟩ := m
  unfold SettingsDraft.assign
  rw [if_neg hm.fixed, if_neg hm.make]
  by_cases hwhole : key = wholeKey
  · obtain ⟨inner, rfl⟩ : ∃ inner, value = .object inner := hm.whole hwhole
    rw [if_pos hwhole, count, if_pos hwhole]
    exact ⟨_, rfl, reads_fresh.overlays inner⟩
  · rw [if_neg hwhole, count_of_ne hwhole]
    exact ⟨_, rfl, h.overlay key value⟩

/-! ### Mappings -/

theorem accepted_of_assigns (h : members.foldlM (fun d (key, value) => d.assign key value) d = .ok d') :
    ∀ m ∈ members, Accepted m := by
  induction members generalizing d with
  | nil => simp
  | cons m members ih =>
    obtain ⟨d₁, hm, hmembers⟩ := (bind_ok_iff _ _ _).mp h
    exact List.forall_mem_cons.mpr ⟨accepted_of_assign hm, ih hmembers⟩

theorem Reads.assigns (h : Reads d found) (hm : ∀ m ∈ members, Accepted m) :
    ∃ d', members.foldlM (fun d (key, value) => d.assign key value) d = .ok d' ∧
      Reads d' (members.foldl count found) := by
  induction members generalizing d found with
  | nil => exact ⟨d, rfl, h⟩
  | cons m members ih =>
    obtain ⟨hfirst, hrest⟩ := List.forall_mem_cons.mp hm
    obtain ⟨d₁, hassign, hreads⟩ := h.assign hfirst
    obtain ⟨d', hassigns, hreads'⟩ := ih hreads hrest
    exact ⟨d', (bind_ok_iff _ _ _).mpr ⟨d₁, hassign, hassigns⟩, hreads'⟩

theorem Reads.unique (h : Reads d found) (h' : Reads d' found) : d = d' := by
  obtain ⟨settings, exportHidden⟩ := d
  obtain ⟨settings', exportHidden'⟩ := d'
  obtain rfl : settings = settings' := Settings.eq_of_get fun x => (h.get x).trans (h'.get x).symm
  obtain rfl : exportHidden = exportHidden' := h.hidden.trans h'.hidden.symm
  rfl

/-- A mapping is loaded exactly if its members are accepted and the case is known. What is loaded is what
counts of it. -/
theorem ofTree_ok_iff :
    ofTree (.object members) = .ok d ↔
      (∀ m ∈ members, Accepted m) ∧ Reads d (counted members) ∧ ∃ c, d.settings.case = .ok c := by
  have hload : ofTree (.object members) = .ok d ↔
      members.foldlM (fun d (key, value) => d.assign key value) fresh = .ok d ∧
        ∃ c, d.settings.case = .ok c := by
    simp only [ofTree, bind_ok_iff, pure_ok_iff]
    constructor
    · rintro ⟨_, hfold, c, hc, rfl⟩
      exact ⟨hfold, c, hc⟩
    · rintro ⟨hfold, c, hc⟩
      exact ⟨d, hfold, c, hc, rfl⟩
  rw [hload]
  constructor
  · rintro ⟨hfold, hcase⟩
    have haccepted := accepted_of_assigns hfold
    obtain ⟨d', hfold', hreads⟩ := reads_fresh.assigns haccepted
    obtain rfl := Except.ok.inj (hfold.symm.trans hfold')
    exact ⟨haccepted, hreads, hcase⟩
  · rintro ⟨haccepted, hreads, hcase⟩
    obtain ⟨d', hfold, hreads'⟩ := reads_fresh.assigns haccepted
    obtain rfl := hreads.unique hreads'
    exact ⟨hfold, hcase⟩

theorem toTree_ok_iff {t : Tree} :
    d.toTree = .ok t ↔ d.exportHidden = false ∧ .object d.settings.members = t := by
  unfold toTree
  cases d.exportHidden <;> simp

/-! ### Plain mappings -/

theorem accepted_of_plain (h : m.1 ∉ reservedKeys) : Accepted m := by
  simp only [reservedKeys, List.mem_append, List.mem_cons, List.not_mem_nil, or_false, not_or] at h
  obtain ⟨hfixed, hmake, hwhole, -⟩ := h
  exact ⟨hfixed, hmake, fun h => absurd h hwhole⟩

theorem counted_of_plain (hkeys : (members.map Prod.fst).Nodup)
    (h : ∀ m ∈ members, m.1 ∉ reservedKeys) : counted members = members := by
  have hcount : ∀ found, members.foldl count found = putMembers found members := by
    intro found
    refine List.foldl_ext _ _ _ fun found m hm => count_of_ne ?_ _ _
    intro hwhole
    exact h m hm (hwhole ▸ by decide)
  rw [counted, hcount, putMembers_of_nodup (by simpa using hkeys), List.nil_append]

theorem undisturbed_of_plain (hkeys : (members.map Prod.fst).Nodup)
    (h : ∀ m ∈ members, m.1 ∉ reservedKeys) : Undisturbed members := by
  have hcounted := counted_of_plain hkeys h
  refine ⟨fun m hm => accepted_of_plain (h m hm), ?_, fun x => by rw [hcounted]⟩
  rw [hcounted, ← Option.not_isSome_iff_eq_none, ← mem_keys_iff]
  intro hexport
  obtain ⟨m, hm, hkey⟩ := List.mem_map.mp hexport
  exact h m hm (hkey ▸ by decide)

theorem plain_members (s : Settings) : ∀ m ∈ s.members, m.1 ∉ reservedKeys := by
  intro m hm
  obtain ⟨x, -, rfl⟩ := List.mem_map.mp hm
  exact key_notMem_reservedKeys x

/-- Settings that can be exported are loaded as they are. -/
theorem ofTree_of_toTree {t : Tree} {c : Case} (hcase : d.settings.case = .ok c) (h : d.toTree = .ok t) :
    ofTree t = .ok d := by
  obtain ⟨hshown, rfl⟩ := toTree_ok_iff.mp h
  have hkeys : (d.settings.members.map Prod.fst).Nodup :=
    d.settings.keys_members ▸ Setting.nodup_keys
  have hplain := undisturbed_of_plain hkeys (plain_members d.settings)
  refine ofTree_ok_iff.mpr ⟨hplain.accepted, ⟨fun x => ?_, ?_⟩, c, hcase⟩
  · rw [hplain.kept, Settings.given_members]
  · rw [hplain.exported, hshown]
    rfl

/-- A mapping whose case, where it gives one, is known is loaded, and exported as the defaults with its values
over them, exactly if no member does more than give its setting; in particular if no key is reserved. Whatever
was loaded and can be exported is loaded again as it was. -/
theorem load_overlays_iff {members : List (String × Tree)}
    (hcase : ∀ t, members.lookup Setting.attributeCase.key = some t → Settings.NamesCase t) :
    (ofTree (.object members) >>= toTree = .ok (Settings.overDefaults members) ↔ Undisturbed members) ∧
      ((members.map Prod.fst).Nodup → (∀ m ∈ members, m.1 ∉ reservedKeys) → Undisturbed members) ∧
      ∀ d t, ofTree (.object members) = .ok d → d.toTree = .ok t → ofTree t = .ok d := by
  refine ⟨?_, undisturbed_of_plain, fun d t hload hexport => ?_⟩
  · simp only [bind_ok_iff, ofTree_ok_iff, toTree_ok_iff, Settings.members_eq_iff]
    constructor
    · rintro ⟨d, ⟨haccepted, hreads, -⟩, hshown, hget⟩
      refine ⟨haccepted, ?_, fun x => (hreads.get x).symm.trans (hget x)⟩
      simpa [hshown] using hreads.hidden
    · intro h
      obtain ⟨d, -, hreads⟩ := reads_fresh.assigns h.accepted
      have hget : ∀ x, d.settings.get x = Settings.given members x := fun x =>
        (hreads.get x).trans (h.kept x)
      have hnames : Settings.NamesCase d.settings.attributeCase := by
        have hgiven : d.settings.attributeCase = Settings.given members .attributeCase :=
          hget .attributeCase
        rw [hgiven, Settings.given]
        cases hlookup : members.lookup Setting.attributeCase.key with
        | none => exact ⟨.plain, rfl⟩
        | some t => exact hcase t hlookup
      exact ⟨d, ⟨h.accepted, hreads, Settings.case_ok_of_namesCase hnames⟩,
        hreads.hidden.trans (by rw [← counted, h.exported]; rfl), hget⟩
  · obtain ⟨-, -, c, hc⟩ := ofTree_ok_iff.mp hload
    exact ofTree_of_toTree hc hexport

/-- A mapping with two settings, between keys that are none. -/
def flowInSnake : List (String × Tree) :=
  [("from_dict", .int 1), ("use_flow", .bool true), ("useFlow", .bool false), ("attribute_case", .text "snake")]

theorem load_overlays_iff_flowInSnake :
    (∀ t, flowInSnake.lookup Setting.attributeCase.key = some t → Settings.NamesCase t) ∧
      (flowInSnake.map Prod.fst).Nodup ∧ (∀ m ∈ flowInSnake, m.1 ∉ reservedKeys) ∧
      ofTree (.object flowInSnake) >>= toTree = .ok (.object
        [("is_v2", .bool false), ("use_flow", .bool true), ("use_prop_types", .bool true),
          ("attribute_case", .text "snake"), ("template_dir", .text ""), ("with_date", .bool false),
          ("file_extension", .text ".js")]) ∧
      ∃ d t, ofTree (.object flowInSnake) = .ok d ∧ d.toTree = .ok t ∧ ofTree t = .ok d := by
  have hcase : ∀ t, flowInSnake.lookup Setting.attributeCase.key = some t → Settings.NamesCase t := by
    rintro t ht
    obtain rfl : Tree.text "snake" = t := Option.some.inj ht
    exact ⟨.snake, rfl⟩
  have hkeys : (flowInSnake.map Prod.fst).Nodup := by decide
  have hplain : ∀ m ∈ flowInSnake, m.1 ∉ reservedKeys := by
    simp only [flowInSnake, List.forall_mem_cons]
    decide
  obtain ⟨hiff, hundisturbed, hagain⟩ := load_overlays_iff hcase
  have hload := hiff.mpr (hundisturbed hkeys hplain)
  obtain ⟨d, hd, hexport⟩ := (bind_ok_iff _ _ _).mp hload
  exact ⟨hcase, hkeys, hplain, hload, d, _, hd, hexport, hagain d _ hd hexport⟩

/-- A key that is no setting, and for which the mapping is refused. -/
theorem converter_key_refused :
    (∀ t, [("attribute_converter", Tree.text "camel")].lookup Setting.attributeCase.key = some t →
        Settings.NamesCase t) ∧
      ofTree (.object [("attribute_converter", .text "camel")]) >>= toTree =
        .error (.fixedSetting "attribute_converter") ∧
      ofTree (.object [("attribute_converter", .text "camel")]) >>= toTree ≠
        .ok (Settings.overDefaults [("attribute_converter", .text "camel")]) :=
  ⟨nofun, rfl, nofun⟩

end SettingsDraft

end ApiRecords
