import ApiRecords.Proofs.Entities
import ApiRecords.Proofs.Objects.Quotes

/-!
Relations and mappings of unions as object literals: which of them read back as they are. The quotes around
keys and leaves are taken away with all others, so just those do in which each key is a name or a number,
and each leaf the name of a variable.
-/

namespace ApiRecords

open ObjectNotation

namespace ObjectNotation

variable {chars : NameChars}

theorem clean_of_isName {s : String} (h : isName chars s) : Clean chars s :=
  clean_of_spellName (Bool.and_eq_true_iff.mp h).1

theorem clean_of_isKey {s : String} (h : isKey chars s) : Clean chars s := by
  rcases Bool.or_eq_true_iff.mp h with h | h
  · exact clean_of_isName h
  · have htok := spelled_tokens (tokens_bare_number_iff.mpr h) _ List.mem_cons_self
    exact IsShown.clean htok

theorem clean_of_isLeaf {s : String} (h : isLeaf chars s) : Clean chars s :=
  clean_of_isName (Bool.and_eq_true_iff.mp h).1

/-- A tree of names reads back just when its keys are names or numbers and its leaves names of
variables. -/
theorem read_eq_iff {t : Tree} (hn : t.isNested) :
    read chars (String.ofList (text 0 t)) = some t ↔ t.every (isKey chars) (isLeaf chars) := by
  constructor
  · intro h
    have hclean := clean_of_read hn h
    rw [read_of_clean hn hclean] at h
    exact (reread_eq_iff t hn hclean).mp h
  · intro h
    have hclean : ∀ s ∈ t.parts, Clean chars s :=
      t.parts_of_every (fun _ => clean_of_isKey) (fun _ => clean_of_isLeaf) h
    rw [read_of_clean hn hclean]
    exact (reread_eq_iff t hn hclean).mpr h

/-! ### Names of schemas and unions -/

theorem part_of_ascii {cs : List Char} (h : cs.all fun c => c.toNat < 128 && asciiNames.part c) :
    ∀ c ∈ cs, chars.part c ∧ c.toNat < 0x10000 := fun c hc => by
  have hc := List.all_eq_true.mp h c hc
  simp only [Bool.and_eq_true, decide_eq_true_eq] at hc
  rw [part_ascii hc.1]
  exact ⟨hc.2, by omega⟩

/-- The name of a schema is that of a variable just when the name of the model is a name. -/
theorem isLeaf_entityName {model : Tree} (h : model.display ≠ "") :
    isLeaf chars (entityName model) = isName chars model.display := by
  have hfree : entityName model ∉ reserved := fun hmem => by
    have hsuffix : ∀ r ∈ reserved, ¬ "Schema".toList <:+ r.toList := by decide +kernel
    exact hsuffix _ hmem ⟨_, (toList_entityName model).symm⟩
  have hname : isName chars (entityName model) = isName chars model.display :=
    isName_append h (part_of_ascii (by decide))
  rw [isLeaf, hname]
  simp [hfree]

theorem isLeaf_keyOf (n : Nat) : isLeaf chars (Union.keyOf n) := by
  have hfree : Union.keyOf n ∉ reserved := fun hmem => by
    have hprefix : ∀ r ∈ reserved, ¬ "oneOfSchema".toList <+: r.toList := by decide +kernel
    exact hprefix _ hmem ⟨_, (toList_keyOf n).symm⟩
  have hdigits : ∀ c ∈ (toString n).toList, chars.part c ∧ c.toNat < 0x10000 := by
    refine part_of_ascii (List.all_eq_true.mpr fun c hc => ?_)
    have hc : c ∈ Nat.toDigits 10 n := (Nat.toList_repr : (toString n).toList = _) ▸ hc
    have hdigit := Nat.isDigit_of_mem_toDigits (by decide) (by decide) hc
    have hascii := (isShown_toDigits n c hc).1
    simp only [asciiNames, hdigit, Bool.or_true, Bool.and_true, decide_eq_true_eq]
    omega
  have hword : isName chars "oneOfSchema" := by
    have hstart : asciiNames.start 'o' := by decide
    have hfirst : isName chars "o" := by
      simp [isName, NameChars.spellName, start_ascii (by decide : 'o'.toNat < 128), hstart]
    exact (isName_append (s := "o") (t := "neOfSchema") (by decide) (part_of_ascii (by decide))).trans
      hfirst
  rw [isLeaf, Union.keyOf, isName_append (by decide) hdigits, hword]
  simpa [Union.keyOf] using hfree

end ObjectNotation

/-! ### What is written of unions and relations -/

/-- The mapping of a union as it is written. -/
def Union.mappingTree (u : Union) : Tree :=
  .object (u.mapping.map fun (key, target) => (key.jsonKey, .text target))

theorem everyMember_mappingTree (key leaf : String → Bool) (targets : List (Scalar × String)) :
    Tree.everyMember key leaf (targets.map fun (k, target) => (k.jsonKey, .text target)) ↔
      ∀ m ∈ targets, key m.1.jsonKey ∧ leaf m.2 := by
  induction targets with
  | nil => simp [Tree.everyMember]
  | cons m targets ih => simp [Tree.everyMember, Tree.every, ih]

/-- The mapping of a union that selects schemas by their names, as a literal. -/
theorem Union.mapping_read_iff {chars : NameChars} {u : Union} (h : ∀ m ∈ u.mapping, m.2 ≠ "") :
    ∃ s, u.mappingTree.objectLiteral? = .ok (some s) ∧
      (read chars s = some u.mappingTree ↔
        ∀ m ∈ u.mapping, isKey chars m.1.jsonKey ∧ isLeaf chars m.2) := by
  have hn : u.mappingTree.isNested :=
    (everyMember_mappingTree _ _ _).mpr fun m hm => ⟨rfl, decide_eq_true (h m hm)⟩
  refine ⟨_, objectLiteral?_of_isNested hn rfl, ?_⟩
  rw [read_eq_iff hn]
  exact everyMember_mappingTree _ _ _

namespace Tree

mutual

theorem isNested_of_pruned : (t : Tree) → t.pruned → t.isNested
  | scalar s, h => by
    cases s with
    | text s => exact h
    | _ => cases h
  | array items, h => everyItem_of_pruned items (Bool.and_eq_true_iff.mp h).2
  | object members, h => everyMember_of_pruned members (Bool.and_eq_true_iff.mp h).2
  | back _, h => by cases h

theorem everyItem_of_pruned : (ts : List Tree) → prunedItems ts → everyItem (fun _ => true) (· ≠ "") ts
  | [], _ => rfl
  | t :: ts, h => by
    have h := Bool.and_eq_true_iff.mp h
    exact Bool.and_eq_true_iff.mpr ⟨isNested_of_pruned t h.1, everyItem_of_pruned ts h.2⟩

theorem everyMember_of_pruned : (ts : List (String × Tree)) → prunedMembers ts →
    everyMember (fun _ => true) (· ≠ "") ts
  | [], _ => rfl
  | (_, t) :: ts, h => by
    have h := Bool.and_eq_true_iff.mp h
    exact Bool.and_eq_true_iff.mpr ⟨isNested_of_pruned t h.1, everyMember_of_pruned ts h.2⟩

end

end Tree

namespace Graph

variable {g : Graph}

theorem union_targets {v : Value} {u : Union} (h : g.union v = .ok u) : ∀ m ∈ u.mapping, m.2 ≠ "" := by
  intro m hm
  obtain ⟨_, _, -, -, hbranches, -⟩ := union_ok h
  obtain ⟨b, hb, hm⟩ := union_select h m hm
  rw [hm, (branches_named hbranches b hb).2]
  exact entityName_ne_empty _

end Graph

/-- The mappings of unions and the relations of models as object literals. -/
theorem literals_read_back (chars : NameChars) (g : Graph) :
    (∀ v u, g.union v = .ok u →
      ∃ s, u.mappingTree.objectLiteral? = .ok (some s) ∧
        (read chars s = some u.mappingTree ↔
          ∀ m ∈ u.mapping, isKey chars m.1.jsonKey ∧ isLeaf chars m.2)) ∧
    (∀ offset v found d, g.findings offset v = .ok found → found.dependency = some d →
      (∃ name, d = .leaf name ∧ d.toTree.objectLiteral? = .ok none) ∨
      ∃ s, d.toTree.objectLiteral? = .ok (some s) ∧
        (read chars s = some d.toTree ↔ d.toTree.every (isKey chars) (isLeaf chars))) ∧
    (∀ model : Tree, model.display ≠ "" →
      isLeaf chars (entityName model) = isName chars model.display) ∧
    ∀ n, isLeaf chars (Union.keyOf n) := by
  refine ⟨fun v u hu => ?_, fun offset v found d hfound hd => ?_, fun model => isLeaf_entityName,
    isLeaf_keyOf⟩
  · exact Union.mapping_read_iff (g.union_targets hu)
  · have hn := d.toTree.isNested_of_pruned ((findFrom_sound hfound).pruned d hd)
    cases d with
    | leaf name => exact .inl ⟨name, rfl, rfl⟩
    | list | shape => exact .inr ⟨_, objectLiteral?_of_isNested hn rfl, read_eq_iff hn⟩

/-- A union of one model, under each of some keys. -/
def catsUnder (keys : List String) : Document := .ofTree (.object [
  ("oneOf", .array [.object [
    (modelNameKey, .text "Cat"), (keptRefKey, .text "#/Cat"),
    ("properties", .object [("id", .object [])])]]),
  ("discriminator", .object [
    ("propertyName", .text "kind"), ("mapping", .object (keys.map fun key => (key, .text "#/Cat")))])])

def unionUnder (keys : List String) : Union where
  key := none
  propertyName := .text "kind"
  mapping := keys.map fun key => (.text key, "CatSchema")
  branches := [⟨.text "Cat", "CatSchema", .text "#/Cat", .node 2⟩]

theorem literals_read_back_cats :
    (catsUnder ["cat", "404"]).graph.union (catsUnder ["cat", "404"]).root =
        .ok (unionUnder ["cat", "404"]) ∧
      (unionUnder ["cat", "404"]).mappingTree.objectLiteral? =
        .ok (some "\x7b\n  cat: CatSchema,\n  404: CatSchema\n\x7d") ∧
      read asciiNames "\x7b\n  cat: CatSchema,\n  404: CatSchema\n\x7d" =
        some (unionUnder ["cat", "404"]).mappingTree := by
  have hu : (catsUnder ["cat", "404"]).graph.union (catsUnder ["cat", "404"]).root =
      .ok (unionUnder ["cat", "404"]) := by rfl
  have htext : (unionUnder ["cat", "404"]).mappingTree.objectLiteral? =
      .ok (some "\x7b\n  cat: CatSchema,\n  404: CatSchema\n\x7d") := by rfl
  obtain ⟨s, hs, hread⟩ := (literals_read_back asciiNames _).1 _ _ hu
  obtain rfl : s = _ := Option.some.inj (Except.ok.inj (hs.symm.trans htext))
  exact ⟨hu, htext, hread.mpr (by decide +kernel)⟩

/-- A key with a hyphen cannot be read without its quotes. -/
theorem hyphened_key_unreadable :
    (catsUnder ["big-cat"]).graph.union (catsUnder ["big-cat"]).root = .ok (unionUnder ["big-cat"]) ∧
      (unionUnder ["big-cat"]).mappingTree.objectLiteral? =
        .ok (some "\x7b\n  big-cat: CatSchema\n\x7d") ∧
      read asciiNames "\x7b\n  big-cat: CatSchema\n\x7d" = none := by
  have htokens : tokens asciiNames "\x7b\n  big-cat: CatSchema\n\x7d".toList = none := by rfl
  refine ⟨by rfl, by rfl, ?_⟩
  rw [ObjectNotation.read, htokens, Option.bind_none]

end ApiRecords
