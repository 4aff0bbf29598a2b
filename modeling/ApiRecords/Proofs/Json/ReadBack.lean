import ApiRecords.Proofs.Json.Tokens

/-!
Values written as JSON text read back. The text of a value is cut into the tokens of its parts, and these
are put together over any open containers.
-/

namespace ApiRecords

namespace Json

mutual

def tokensOf : Tree → List Token
  | .scalar s => [.scalar s]
  | .array [] => [.openArray, .closeArray]
  | .array (t :: ts) => .openArray :: tokensOf t ++ moreItems ts ++ [.closeArray]
  | .object [] => [.openObject, .closeObject]
  | .object ((key, t) :: ts) =>
    .openObject :: .scalar (.text key) :: .colon :: tokensOf t ++ moreMembers ts ++ [.closeObject]
  | .back _ => []

def moreItems : List Tree → List Token
  | [] => []
  | t :: ts => .comma :: tokensOf t ++ moreItems ts

def moreMembers : List (String × Tree) → List Token
  | [] => []
  | (key, t) :: ts => .comma :: .scalar (.text key) :: .colon :: tokensOf t ++ moreMembers ts

end

/-! ### The text of a value -/

theorem toList_intercalate_cons (sep first : String) (parts : List String) :
    (sep.intercalate (first :: parts)).toList =
      first.toList ++ parts.flatMap fun part => sep.toList ++ part.toList := by
  induction parts generalizing first with
  | nil => simp
  | cons second parts ih => simp [String.intercalate_cons_cons, ih]

theorem toList_enclose (depth : Nat) (opening closing first : String) (parts : List String) :
    (enclose .spaced depth opening closing (first :: parts)).toList =
      opening.toList ++ (first.toList ++
        ((parts.flatMap fun part => ',' :: ' ' :: part.toList) ++ closing.toList)) := by
  rw [enclose_spaced, String.toList_append, String.toList_append, toList_intercalate_cons]
  simp

theorem Reads.member {cs : List Char} {toks : List Token} (key : String) (h : Reads cs toks) :
    Reads ((writeText true key).toList ++ ':' :: ' ' :: cs) (.scalar (.text key) :: .colon :: toks) :=
  (reads_text true key).append (h.space.mark rfl)

mutual

theorem reads_json : (t : Tree) → t.cyclic = false → t.HasForm → ∀ depth,
    Reads (t.jsonAt .spaced depth).toList (tokensOf t)
  | .scalar s, _, hform, _ => by
    cases hform with
    | scalar h => exact reads_scalar h
  | .array [], _, _, _ => by
    have hempty : Reads ['[', ']'] [.openArray, .closeArray] :=
      (Reads.mark rfl (Follows.nil.reads.mark rfl).reads).reads
    rw [tokensOf]
    simpa [Tree.jsonAt, Tree.jsonItems, enclose] using hempty
  | .array (t :: ts), hcyclic, hform, depth => by
    simp only [Tree.cyclic, Tree.cyclicItems, Bool.or_eq_false_iff] at hcyclic
    cases hform with
    | array h =>
      obtain ⟨ht, hts⟩ := List.forall_mem_cons.mp h
      have hfirst := reads_json t hcyclic.1 ht (depth + 1)
      have hmore := follows_items ts hcyclic.2 hts (depth + 1)
      have hclose : Follows [']'] [.closeArray] := Follows.nil.reads.mark rfl
      rw [Tree.jsonAt, Tree.jsonItems, toList_enclose, tokensOf, List.append_assoc]
      exact (Reads.mark rfl (hfirst.append (hmore.append hclose))).reads
  | .object [], _, _, _ => by
    have hempty : Reads ['\x7b', '\x7d'] [.openObject, .closeObject] :=
      (Reads.mark rfl (Follows.nil.reads.mark rfl).reads).reads
    rw [tokensOf]
    simpa [Tree.jsonAt, Tree.jsonMembers, enclose] using hempty
  | .object ((key, t) :: ts), hcyclic, hform, depth => by
    simp only [Tree.cyclic, Tree.cyclicMembers, Bool.or_eq_false_iff] at hcyclic
    cases hform with
    | object h =>
      obtain ⟨ht, hts⟩ := List.forall_mem_cons.mp h
      have hfirst := (reads_json t hcyclic.1 ht (depth + 1)).member key
      have hmore := follows_members ts hcyclic.2 hts (depth + 1)
      have hclose : Follows ['\x7d'] [.closeObject] := Follows.nil.reads.mark rfl
      have hall := (Reads.mark (c := '\x7b') rfl (hfirst.append (hmore.append hclose))).reads
      rw [Tree.jsonAt, Tree.jsonMembers, toList_enclose, tokensOf, List.append_assoc]
      simpa [JsonLayout.spaced] using hall
  | .back _, hcyclic, _, _ => by cases hcyclic

theorem follows_items : (ts : List Tree) → Tree.cyclicItems ts = false → (∀ t ∈ ts, t.HasForm) → ∀ depth,
    Follows ((Tree.jsonItems .spaced depth ts).flatMap fun part => ',' :: ' ' :: part.toList)
      (moreItems ts)
  | [], _, _, _ => Follows.nil
  | t :: ts, hcyclic, hform, depth => by
    simp only [Tree.cyclicItems, Bool.or_eq_false_iff] at hcyclic
    obtain ⟨ht, hts⟩ := List.forall_mem_cons.mp hform
    have hfirst := reads_json t hcyclic.1 ht depth
    exact (hfirst.space.mark rfl).append (follows_items ts hcyclic.2 hts depth)

theorem follows_members : (ts : List (String × Tree)) → Tree.cyclicMembers ts = false →
    (∀ m ∈ ts, m.2.HasForm) → ∀ depth,
    Follows ((Tree.jsonMembers .spaced depth ts).flatMap fun part => ',' :: ' ' :: part.toList)
      (moreMembers ts)
  | [], _, _, _ => Follows.nil
  | (key, t) :: ts, hcyclic, hform, depth => by
    simp only [Tree.cyclicMembers, Bool.or_eq_false_iff] at hcyclic
    obtain ⟨ht, hts⟩ := List.forall_mem_cons.mp hform
    have hfirst := (reads_json t hcyclic.1 ht depth).member key
    have hall := (hfirst.space.mark (c := ',') rfl).append (follows_members ts hcyclic.2 hts depth)
    rw [Tree.jsonMembers, moreMembers]
    simpa [JsonLayout.spaced] using hall

end

theorem tokens?_json {t : Tree} (hcyclic : t.cyclic = false) (hform : t.HasForm) :
    tokens? (t.json .spaced).toList = some (tokensOf t) := by
  obtain ⟨cut, hcut, hended⟩ := reads_json t hcyclic hform 0 []
  rw [List.append_nil] at hended
  have hcut : (t.json .spaced).toList.foldlM cutChar ([], .between) = some cut := hcut
  rw [tokens?, hcut]
  obtain ⟨ts, mode⟩ := cut
  cases mode with
  | between =>
    obtain rfl : ts = (tokensOf t).reverse := Option.some.inj hended
    exact congrArg some (List.reverse_reverse _)
  | word taken =>
    have hword : endWord ts taken = some (tokensOf t).reverse := hended
    simp only [hword, Option.map_some, List.reverse_reverse]
  | _ => cases hended

/-! ### The tokens put together -/

section

variable (frames : List Frame) (items : List Tree) (members : List (String × Tree)) (key : String)

@[simp] theorem take_commaItem : takeToken (frames, .commaOrClose (.array items)) .comma =
    some (.array items :: frames, .value) := rfl

@[simp] theorem take_closeArray : takeToken (frames, .commaOrClose (.array items)) .closeArray =
    some (finish (.array items.reverse) frames) := rfl

@[simp] theorem take_commaMember : takeToken (frames, .commaOrClose (.object members key)) .comma =
    some (frames, .key members) := rfl

@[simp] theorem take_closeObject : takeToken (frames, .commaOrClose (.object members key)) .closeObject =
    some (finish (.object members) frames) := rfl

@[simp] theorem take_firstKey : takeToken (frames, .keyOrClose) (.scalar (.text key)) =
    some (frames, .colon [] key) := rfl

@[simp] theorem take_key : takeToken (frames, .key members) (.scalar (.text key)) =
    some (frames, .colon members key) := rfl

@[simp] theorem take_colon : takeToken (frames, .colon members key) .colon =
    some (.object members key :: frames, .value) := rfl

@[simp] theorem finish_item (t : Tree) : finish t (.array items :: frames) =
    (frames, .commaOrClose (.array (t :: items))) := rfl

theorem finish_member (h : key ∉ members.map Prod.fst) (t : Tree) : finish t (.object members key :: frames) =
    (frames, .commaOrClose (.object (members ++ [(key, t)]) key)) := by
  rw [finish, putMember_of_notMem h]

end

/-- A place where a value may begin. -/
def Ready (st : List Frame × Next) (frames : List Frame) : Prop :=
  st = (frames, .value) ∨ st = (frames, .valueOrClose)

mutual

theorem take_tokens : (t : Tree) → t.cyclic = false → t.distinctKeys → ∀ {st frames}, Ready st frames →
    (tokensOf t).foldlM takeToken st = some (finish t frames)
  | .scalar s, _, _, st, frames, hst => by rcases hst with rfl | rfl <;> rfl
  | .array [], _, _, st, frames, hst => by rcases hst with rfl | rfl <;> rfl
  | .array (t :: ts), hcyclic, hkeys, st, frames, hst => by
    simp only [Tree.cyclic, Tree.cyclicItems, Bool.or_eq_false_iff] at hcyclic
    simp only [Tree.distinctKeys, Tree.distinctItems, Bool.and_eq_true] at hkeys
    have hopen : takeToken st .openArray = some (.array [] :: frames, .valueOrClose) := by
      rcases hst with rfl | rfl <;> rfl
    have hfirst := take_tokens t hcyclic.1 hkeys.1 (.inr rfl : Ready (.array [] :: frames, .valueOrClose) _)
    have hmore := take_moreItems ts hcyclic.2 hkeys.2 [t] frames
    simp [tokensOf, hopen, hfirst, hmore]
  | .object [], _, _, st, frames, hst => by rcases hst with rfl | rfl <;> rfl
  | .object ((key, t) :: ts), hcyclic, hkeys, st, frames, hst => by
    simp only [Tree.cyclic, Tree.cyclicMembers, Bool.or_eq_false_iff] at hcyclic
    simp only [Tree.distinctKeys, Tree.distinctMembers, Bool.and_eq_true, decide_eq_true_eq] at hkeys
    have hopen : takeToken st .openObject = some (frames, .keyOrClose) := by
      rcases hst with rfl | rfl <;> rfl
    have hfirst := take_tokens t hcyclic.1 hkeys.2.1 (.inl rfl : Ready (.object [] key :: frames, .value) _)
    obtain ⟨key', hmore⟩ := take_moreMembers ts hcyclic.2 hkeys.2.2 [(key, t)] key frames hkeys.1
    simp [tokensOf, hopen, hfirst, finish_member, hmore]
  | .back _, hcyclic, _, _, _, _ => by cases hcyclic

theorem take_moreItems : (ts : List Tree) → Tree.cyclicItems ts = false → Tree.distinctItems ts →
    ∀ before frames, (moreItems ts).foldlM takeToken (frames, .commaOrClose (.array before)) =
      some (frames, .commaOrClose (.array (ts.reverse ++ before)))
  | [], _, _, _, _ => rfl
  | t :: ts, hcyclic, hkeys, before, frames => by
    simp only [Tree.cyclicItems, Bool.or_eq_false_iff] at hcyclic
    simp only [Tree.distinctItems, Bool.and_eq_true] at hkeys
    have hfirst := take_tokens t hcyclic.1 hkeys.1 (.inl rfl : Ready (.array before :: frames, .value) _)
    have hmore := take_moreItems ts hcyclic.2 hkeys.2 (t :: before) frames
    simp [moreItems, hfirst, hmore]

theorem take_moreMembers : (ts : List (String × Tree)) → Tree.cyclicMembers ts = false →
    Tree.distinctMembers ts → ∀ before key frames, (before ++ ts).map Prod.fst |>.Nodup →
    ∃ key', (moreMembers ts).foldlM takeToken (frames, .commaOrClose (.object before key)) =
      some (frames, .commaOrClose (.object (before ++ ts) key'))
  | [], _, _, before, key, _, _ => ⟨key, by rw [List.append_nil]; rfl⟩
  | (key, t) :: ts, hcyclic, hkeys, before, _, frames, hnodup => by
    simp only [Tree.cyclicMembers, Bool.or_eq_false_iff] at hcyclic
    simp only [Tree.distinctMembers, Bool.and_eq_true] at hkeys
    have hnew : key ∉ before.map Prod.fst := fun hmem => by
      rw [List.map_append] at hnodup
      exact List.disjoint_of_nodup_append hnodup hmem List.mem_cons_self
    have hfirst := take_tokens t hcyclic.1 hkeys.1 (.inl rfl : Ready (.object before key :: frames, .value) _)
    obtain ⟨key', hmore⟩ := take_moreMembers ts hcyclic.2 hkeys.2 (before ++ [(key, t)]) key frames
      (by simpa using hnodup)
    refine ⟨key', ?_⟩
    simp [moreMembers, hfirst, finish_member _ _ _ hnew, hmore]

end

/-- A value read from its own text is the value. -/
theorem read?_json {t : Tree} (h : t.Readable) : read? (t.json .spaced) = some t := by
  have htake := take_tokens t h.acyclic h.keys (.inl rfl : Ready ([], .value) _)
  simp [read?, tokens?_json h.acyclic h.form, htake, finish]

/-- What has been read is written so that it reads back. -/
theorem read?_json_of_read? {s : String} {t : Tree} (h : read? s = some t) :
    read? (t.json .spaced) = some t :=
  read?_json (readable_of_read? h)

end Json

end ApiRecords
