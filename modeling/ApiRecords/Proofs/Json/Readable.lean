import ApiRecords.Document.Json.Reader
import ApiRecords.Proofs.Members
import ApiRecords.Proofs.Numbers.Notation
import ApiRecords.Proofs.Reordering.Trees

/-!
What can be read from JSON text: values without back edges whose objects have each key once, and whose
numbers are in the one form that doubles have. Each character keeps this for the tokens, and each token for
the containers that are open.
-/

namespace ApiRecords

/-- Whether the numbers in a value are in their one form. -/
inductive Tree.HasForm : Tree → Prop
  | scalar {s : Scalar} (h : s.HasForm) : HasForm (.scalar s)
  | array {items : List Tree} (h : ∀ t ∈ items, t.HasForm) : HasForm (.array items)
  | object {members : List (String × Tree)} (h : ∀ m ∈ members, m.2.HasForm) : HasForm (.object members)
  | back (levels : Nat) : HasForm (.back levels)

namespace Tree

theorem distinctItems_iff {ts : List Tree} : distinctItems ts ↔ ∀ t ∈ ts, t.distinctKeys := by
  induction ts with
  | nil => simp [distinctItems]
  | cons t ts ih => simp [distinctItems, ih]

theorem distinctMembers_iff {ts : List (String × Tree)} :
    distinctMembers ts ↔ ∀ m ∈ ts, m.2.distinctKeys := by
  induction ts with
  | nil => simp [distinctMembers]
  | cons m ts ih => simp [distinctMembers, ih]

theorem cyclicItems_iff {ts : List Tree} : cyclicItems ts = false ↔ ∀ t ∈ ts, t.cyclic = false := by
  induction ts with
  | nil => simp [cyclicItems]
  | cons t ts ih => simp [cyclicItems, ih]

theorem cyclicMembers_iff {ts : List (String × Tree)} :
    cyclicMembers ts = false ↔ ∀ m ∈ ts, m.2.cyclic = false := by
  induction ts with
  | nil => simp [cyclicMembers]
  | cons m ts ih => simp [cyclicMembers, ih]

/-- A value as JSON text has them: it leads nowhere back, no object in it has a key twice, and its numbers
are in their one form. -/
structure Readable (t : Tree) : Prop extends t.Proper where
  form : t.HasForm

theorem Readable.scalar {s : Scalar} (h : s.HasForm) : (Tree.scalar s).Readable := ⟨⟨rfl, rfl⟩, .scalar h⟩

theorem Readable.array {items : List Tree} (h : ∀ t ∈ items, t.Readable) : (Tree.array items).Readable :=
  ⟨⟨cyclicItems_iff.mpr fun t ht => (h t ht).acyclic, distinctItems_iff.mpr fun t ht => (h t ht).keys⟩,
    .array fun t ht => (h t ht).form⟩

theorem Readable.object {members : List (String × Tree)} (hkeys : (members.map Prod.fst).Nodup)
    (h : ∀ m ∈ members, m.2.Readable) : (Tree.object members).Readable :=
  ⟨⟨cyclicMembers_iff.mpr fun m hm => (h m hm).acyclic,
    Bool.and_eq_true_iff.mpr ⟨decide_eq_true hkeys, distinctMembers_iff.mpr fun m hm => (h m hm).keys⟩⟩,
    .object fun m hm => (h m hm).form⟩

end Tree

/-- What each step keeps is kept. -/
theorem foldlM_some_keeps {α β : Type} {step : β → α → Option β} {P : β → Prop} {as : List α}
    (hstep : ∀ a ∈ as, ∀ b b', P b → step b a = some b' → P b') {b b' : β} (hb : P b)
    (h : as.foldlM step b = some b') : P b' := by
  induction as generalizing b with
  | nil =>
    cases h
    exact hb
  | cons a as ih =>
    obtain ⟨ha, has⟩ := List.forall_mem_cons.mp hstep
    obtain ⟨b₁, hb₁, hrest⟩ := Option.bind_eq_some_iff.mp h
    exact ih has (ha b b₁ hb hb₁) hrest

namespace Json

/-! ### Tokens -/

theorem hasForm_of_readUnsigned {neg : Bool} {cs : List Char} {s : Scalar} (h : readUnsigned neg cs = some s) :
    s.HasForm := by
  have hpower {digits : ℕ} {shift : ℤ} {power : List Char}
      (h : (readExponent power).map (fun x => Scalar.double (.ofDecimal neg digits (x - shift))) = some s) :
      s.HasForm := by
    obtain ⟨x, -, rfl⟩ := Option.map_eq_some_iff.mp h
    exact Double.hasForm_ofDecimal neg digits _
  unfold readUnsigned at h
  simp only at h
  split at h
  · cases h
  split at h
  · cases h
    trivial
  · split at h
    · cases h
    split at h
    · cases h
      exact Double.hasForm_ofDecimal ..
    · split at h
      · exact hpower h
      · cases h
  · split at h
    · exact @hpower _ 0 _ (by simpa using h)
    · cases h

theorem hasForm_of_readWord {w : String} {s : Scalar} (h : readWord w = some s) : s.HasForm := by
  unfold readWord at h
  split at h
  iterate 6
    · cases h
      trivial
  split at h <;> exact hasForm_of_readUnsigned h

/-- Whether a number among the tokens is in its one form. -/
def Token.HasForm : Token → Prop
  | .scalar s => s.HasForm
  | _ => True

variable {cut cut' : Cut} {c : Char} {ts ts' : List Token}

theorem startToken_form (h : ∀ tok ∈ ts, tok.HasForm) (c : Char) : ∀ tok ∈ (startToken ts c).1, tok.HasForm := by
  unfold startToken
  split
  · exact h
  · split
    · next tok htok =>
      refine List.forall_mem_cons.mpr ⟨?_, h⟩
      unfold punctuation? at htok
      split at htok <;> cases htok <;> trivial
    · split <;> exact h

theorem endWord_form {taken : List Char} (h : ∀ tok ∈ ts, tok.HasForm) (hend : endWord ts taken = some ts') :
    ∀ tok ∈ ts', tok.HasForm := by
  obtain ⟨s, hs, rfl⟩ := Option.map_eq_some_iff.mp hend
  exact List.forall_mem_cons.mpr ⟨hasForm_of_readWord hs, h⟩

theorem cutChar_form (h : ∀ tok ∈ cut.1, tok.HasForm) (hcut : cutChar cut c = some cut') :
    ∀ tok ∈ cut'.1, tok.HasForm := by
  obtain ⟨ts, mode⟩ := cut
  cases mode with
  | between =>
    cases hcut
    exact startToken_form h c
  | word taken =>
    rw [cutChar] at hcut
    split at hcut
    · obtain ⟨ts', hend, rfl⟩ := Option.map_eq_some_iff.mp hcut
      exact startToken_form (endWord_form h hend) c
    · cases hcut
      exact h
  | text taken high =>
    simp only [cutChar] at hcut
    split at hcut
    · cases hcut
      exact List.forall_mem_cons.mpr ⟨trivial, h⟩
    · split at hcut
      · cases hcut
        exact h
      · split at hcut
        · cases hcut
        · cases hcut
          exact h
  | escape taken high =>
    simp only [cutChar] at hcut
    split at hcut
    · cases hcut
      exact h
    · obtain ⟨d, -, rfl⟩ := Option.map_eq_some_iff.mp hcut
      exact h
  | code taken high count value =>
    obtain ⟨d, -, rfl⟩ := Option.map_eq_some_iff.mp hcut
    dsimp only
    split <;> exact h

theorem tokens?_form {cs : List Char} (h : tokens? cs = some ts) : ∀ tok ∈ ts, tok.HasForm := by
  have hcut {cut : Cut} (hfold : cs.foldlM cutChar ([], .between) = some cut) :
      ∀ tok ∈ cut.1, tok.HasForm :=
    foldlM_some_keeps (P := fun cut : Cut => ∀ tok ∈ cut.1, tok.HasForm)
      (fun _ _ _ _ h hstep => cutChar_form h hstep) (List.forall_mem_nil _) hfold
  unfold tokens? at h
  split at h
  · next hfold =>
    cases h
    exact fun tok htok => hcut hfold tok (List.mem_reverse.mp htok)
  · next hfold =>
    obtain ⟨ts', hend, rfl⟩ := Option.map_eq_some_iff.mp h
    exact fun tok htok => endWord_form (hcut hfold) hend tok (List.mem_reverse.mp htok)
  · cases h

/-! ### Open containers -/

def Frame.Readable : Frame → Prop
  | .array items => ∀ t ∈ items, t.Readable
  | .object members _ => (members.map Prod.fst).Nodup ∧ ∀ m ∈ members, m.2.Readable

def Next.Readable : Next → Prop
  | .key members | .colon members _ => (members.map Prod.fst).Nodup ∧ ∀ m ∈ members, m.2.Readable
  | .commaOrClose frame => frame.Readable
  | .done t => t.Readable
  | _ => True

/-- Whether all that has been put together so far is as JSON text has it. -/
structure StateReadable (st : List Frame × Next) : Prop where
  frames : ∀ frame ∈ st.1, frame.Readable
  next : st.2.Readable

theorem finish_readable {frames : List Frame} {t : Tree} (ht : t.Readable) (h : ∀ frame ∈ frames, frame.Readable) :
    StateReadable (finish t frames) := by
  match frames, h with
  | [], h => exact ⟨h, ht⟩
  | .array items :: frames, h =>
    obtain ⟨hitems, hframes⟩ := List.forall_mem_cons.mp h
    exact ⟨hframes, List.forall_mem_cons.mpr ⟨ht, hitems⟩⟩
  | .object members key :: frames, h =>
    obtain ⟨⟨hkeys, hmembers⟩, hframes⟩ := List.forall_mem_cons.mp h
    refine ⟨hframes, nodup_putMember hkeys key t, fun m hm => ?_⟩
    rcases mem_putBy hm with heq | hm
    · exact heq ▸ ht
    · exact hmembers m hm

theorem takeToken_readable {st st' : List Frame × Next} {tok : Token} (h : StateReadable st) (htok : tok.HasForm)
    (htake : takeToken st tok = some st') : StateReadable st' := by
  obtain ⟨hframes, hnext⟩ := h
  unfold takeToken at htake
  split at htake <;> cases htake
  · exact finish_readable (.scalar htok) hframes
  · exact finish_readable (.scalar htok) hframes
  · exact ⟨List.forall_mem_cons.mpr ⟨nofun, hframes⟩, trivial⟩
  · exact ⟨List.forall_mem_cons.mpr ⟨nofun, hframes⟩, trivial⟩
  · exact ⟨hframes, trivial⟩
  · exact ⟨hframes, trivial⟩
  · obtain ⟨hitems, hframes⟩ := List.forall_mem_cons.mp hframes
    exact finish_readable (.array fun t ht => hitems t (List.mem_reverse.mp ht)) hframes
  · exact finish_readable (.object List.nodup_nil nofun) hframes
  · exact ⟨hframes, List.nodup_nil, nofun⟩
  · exact ⟨hframes, hnext⟩
  · exact ⟨List.forall_mem_cons.mpr ⟨hnext, hframes⟩, trivial⟩
  · exact ⟨List.forall_mem_cons.mpr ⟨hnext, hframes⟩, trivial⟩
  · exact finish_readable (.array fun t ht => hnext t (List.mem_reverse.mp ht)) hframes
  · exact ⟨hframes, hnext⟩
  · exact finish_readable (.object hnext.1 hnext.2) hframes

/-- A value that is read from JSON text is as JSON text has it. -/
theorem readable_of_read? {s : String} {t : Tree} (h : read? s = some t) : t.Readable := by
  simp only [read?, Option.bind_eq_bind, Option.bind_eq_some_iff] at h
  obtain ⟨ts, hts, st, hst, h⟩ := h
  have hstart : StateReadable ([], .value) := ⟨List.forall_mem_nil _, trivial⟩
  have hstate : StateReadable st :=
    foldlM_some_keeps (P := StateReadable) (fun tok htok _ _ h hstep => takeToken_readable h (tokens?_form hts tok htok) hstep)
      hstart hst
  split at h
  · cases h
    exact hstate.next
  · cases h

end Json

end ApiRecords
