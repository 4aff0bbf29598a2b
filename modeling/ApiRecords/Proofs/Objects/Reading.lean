import ApiRecords.Proofs.Objects.Literals
import ApiRecords.Proofs.Objects.Names

/-!
Object literals as they are written, read. Where each key and each leaf has the characters of names and
numbers, what is read in its place does not depend on the others, and it is the same just when it is a name
or a number.
-/

namespace ApiRecords.ObjectNotation

section

variable (chars : NameChars)

/-- What is read in the place of a key. -/
def readKey (s : String) : Option String :=
  match tokens chars (bare s) with
  | some [tok] => tok.key?
  | _ => none

/-- What is read in the place of a leaf. -/
def readLeaf (s : String) : Option Tree :=
  match tokens chars (bare s) with
  | some [.name x] => if x ∈ reserved then none else some (.text x)
  | _ => none

mutual

/-- A tree with what is read in the place of each of its parts. -/
def reread : Tree → Option Tree
  | .scalar (.text s) => readLeaf chars s
  | .scalar _ => none
  | .array items => (rereadItems items).map .array
  | .object members => (rereadMembers members).map .object
  | .back _ => none

def rereadItems : List Tree → Option (List Tree)
  | [] => some []
  | t :: ts => (reread t).bind fun r => (rereadItems ts).map (r :: ·)

def rereadMembers : List (String × Tree) → Option (List (String × Tree))
  | [] => some []
  | (key, t) :: ts =>
    (readKey chars key).bind fun k => (reread t).bind fun r => (rereadMembers ts).map ((k, r) :: ·)

end

/-- The state after more of a text, which is read from between its tokens. -/
def readFrom (st : State) (cs : List Char) : Option State :=
  (tokensFrom chars .between cs).bind (·.foldlM take st)

end

variable {chars : NameChars} {st : State} {frames : List Frame}

/-! ### Steps -/

theorem readFrom_of_next {c : Char} {ts : List Token} (h : next chars .between c = some (ts, .between))
    (st : State) (cs : List Char) :
    readFrom chars st (c :: cs) = (ts.foldlM take st).bind fun st => readFrom chars st cs := by
  have htokens : tokensFrom chars .between (c :: cs) = (tokensFrom chars .between cs).map (ts ++ ·) := by
    have happend : tokensFrom chars .between ([c] ++ cs) = _ := tokensFrom_append .between [c] cs
    rwa [run_singleton, h] at happend
  rw [readFrom, htokens, Option.bind_map]
  simp only [Function.comp_def, List.foldlM_append]
  exact Option.bind_comm _ _

theorem readFrom_mark {c : Char} (hc : c ∈ marks) (st : State) (cs : List Char) :
    readFrom chars st (c :: cs) = (take st (.mark c)).bind fun st => readFrom chars st cs := by
  have hnext : next chars .between c = some ([.mark c], .between) := by
    have hascii : c.toNat < 128 := (forall_of_all (by decide) : ∀ c ∈ marks, c.toNat < 128) c hc
    rw [next, start_eq_ascii hascii]
    exact (forall_of_all (by decide) : ∀ c ∈ marks, start asciiNames c = some ([.mark c], .between)) c hc
  rw [readFrom_of_next hnext]
  simp

theorem readFrom_blank {c : Char} (hc : c ∈ ['\n', ' ']) (st : State) (cs : List Char) :
    readFrom chars st (c :: cs) = readFrom chars st cs := by
  have hnext : next chars .between c = some ([], .between) := by
    have hascii : c.toNat < 128 := (forall_of_all (by decide) : ∀ c ∈ ['\n', ' '], c.toNat < 128) c hc
    rw [next, start_eq_ascii hascii]
    exact (forall_of_all (by decide) : ∀ c ∈ ['\n', ' '], start asciiNames c = some ([], .between)) c hc
  rw [readFrom_of_next hnext]
  simp

theorem readFrom_line (depth : Nat) (st : State) (cs : List Char) :
    readFrom chars st (line depth ++ cs) = readFrom chars st cs := by
  rw [line, List.cons_append, readFrom_blank (by decide)]
  induction 2 * depth with
  | zero => rfl
  | succ n ih => rw [List.replicate_succ, List.cons_append, readFrom_blank (by decide), ih]

theorem readFrom_bare {s : String} (hs : Clean chars s) {rest : List Char} (hrest : Ends rest) :
    readFrom chars st (bare s ++ rest) =
      (tokens chars (bare s)).bind fun ts =>
        (ts.foldlM take st).bind fun st => readFrom chars st rest := by
  rw [readFrom, tokensFrom_bare hs hrest]
  cases tokens chars (bare s) with
  | none => rfl
  | some ts =>
    rw [Option.bind_some, Option.bind_some, Option.bind_map]
    simp only [Function.comp_def, List.foldlM_append]
    exact Option.bind_comm _ _

/-! ### Keys and leaves -/

/-- Nothing but a mark follows a value. -/
theorem take_put {tok : Token} (h : tok.isWord) (t : Tree) : take (put frames t) tok = none := by
  unfold put
  split <;> cases tok <;> simp_all [take, Token.isWord]

theorem readFrom_key {s : String} (hs : Clean chars s) (before : List (String × Tree)) (rest : List Char) :
    readFrom chars (frames, .member before) (bare s ++ ':' :: rest) =
      (readKey chars s).bind fun key => readFrom chars (.object before key :: frames, .value) rest := by
  rw [readFrom_bare hs (by simp [Ends]), readKey]
  simp only [readFrom_mark (by decide : ':' ∈ marks)]
  cases h : tokens chars (bare s) with
  | none => rfl
  | some ts =>
    obtain ⟨-, hword, -⟩ := tokens_of_clean hs h
    match ts with
    | [] => rfl
    | [tok] =>
      have htok := hword tok List.mem_cons_self
      cases tok <;> simp_all [take, Token.isWord, Token.key?]
    | tok :: tok' :: ts =>
      have htok := hword tok List.mem_cons_self
      have htok' := hword tok' (by simp)
      cases tok <;> cases tok' <;> simp_all [take, Token.isWord, Token.key?]

/-- A place where a value may begin. -/
def Ready (st : State) (frames : List Frame) : Prop :=
  ∀ tok, tok ≠ .mark ']' → take st tok = begin? frames tok

theorem ready_value (frames : List Frame) : Ready (frames, .value) frames := fun _ _ => rfl

theorem ready_item (frames : List Frame) (before : List Tree) :
    Ready (frames, .item before) (.array before :: frames) := fun _ htok => if_neg htok

theorem readFrom_leaf {s : String} (hs : Clean chars s) (hne : s ≠ "") (hst : Ready st frames)
    {rest : List Char} (hrest : Ends rest) :
    readFrom chars st (bare s ++ rest) =
      (readLeaf chars s).bind fun t => readFrom chars (put frames t) rest := by
  rw [readFrom_bare hs hrest, readLeaf]
  cases h : tokens chars (bare s) with
  | none => rfl
  | some ts =>
    obtain ⟨-, hword, hlen⟩ := tokens_of_clean hs h
    have hbegin {tok : Token} (htok : tok ∈ ts) : take st tok = begin? frames tok :=
      hst tok (by rintro rfl; cases hword _ htok)
    match ts with
    | [] => exact absurd rfl (hlen hne)
    | [tok] =>
      have htok := hword tok List.mem_cons_self
      simp only [Option.bind_some, List.foldlM_cons, List.foldlM_nil, hbegin List.mem_cons_self]
      cases tok with
      | name x => by_cases hx : x ∈ reserved <;> simp [begin?, hx]
      | number x => simp [begin?]
      | _ => cases htok
    | tok :: tok' :: ts =>
      have htok := hword tok List.mem_cons_self
      have htok' := hword tok' (by simp)
      simp only [Option.bind_some, List.foldlM_cons, hbegin List.mem_cons_self]
      cases tok with
      | name x => by_cases hx : x ∈ reserved <;> simp [begin?, hx, take_put htok']
      | number x => simp [begin?]
      | _ => cases htok

/-! ### Whole trees -/

theorem ends_moreText {α : Type} {depth : Nat} {part : α → List Char} {parts : List α} {rest : List Char}
    (h : Ends rest) : Ends (moreText depth part parts ++ rest) := by
  cases parts with
  | nil => exact h
  | cons p parts => simp [Ends, moreText]

theorem ends_line (depth : Nat) (cs : List Char) : Ends (line depth ++ cs) := by
  simp [Ends, line]

mutual

theorem readFrom_text : (t : Tree) → t.isNested → (∀ s ∈ t.parts, Clean chars s) →
    ∀ {st : State} {frames : List Frame} {depth : Nat} {rest : List Char}, Ready st frames → Ends rest →
      readFrom chars st (text depth t ++ rest) =
        (reread chars t).bind fun r => readFrom chars (put frames r) rest
  | .scalar s, hn, hclean, st, frames, depth, rest, hst, hrest => by
    cases s with
    | text s =>
      rw [text_leaf, reread]
      exact readFrom_leaf (hclean s List.mem_cons_self) (by simpa [Tree.isNested, Tree.every] using hn)
        hst hrest
    | _ => cases hn
  | .array [], _, _, st, frames, depth, rest, hst, _ => by
    have hopen : take st (.mark '[') = some (frames, .item []) := hst _ (by decide)
    rw [text_array_nil, List.cons_append, readFrom_mark (by decide), hopen]
    simp [readFrom_mark (by decide : ']' ∈ marks), take, reread, rereadItems]
  | .array (t :: items), hn, hclean, st, frames, depth, rest, hst, hrest => by
    have hn := Bool.and_eq_true_iff.mp hn
    obtain ⟨ht, hitems⟩ := List.forall_mem_append.mp hclean
    have hopen : take st (.mark '[') = some (frames, .item []) := hst _ (by decide)
    simp only [text_array_cons, List.cons_append, List.append_assoc]
    rw [readFrom_mark (by decide), hopen, Option.bind_some, readFrom_line,
      readFrom_text t hn.1 ht (ready_item frames []) (ends_moreText (ends_line _ _)), reread,
      rereadItems]
    cases reread chars t with
    | none => rfl
    | some r =>
      simp only [Option.bind_some, put_array, List.nil_append]
      rw [readFrom_moreItems items hn.2 hitems (ends_line _ _)]
      cases rereadItems chars items with
      | none => rfl
      | some rs =>
        simp [readFrom_line, readFrom_mark (by decide : ']' ∈ marks), take]
  | .object [], _, _, st, frames, depth, rest, hst, _ => by
    have hopen : take st (.mark '\x7b') = some (frames, .member []) := hst _ (by decide)
    rw [text_object_nil, List.cons_append, readFrom_mark (by decide), hopen]
    simp [readFrom_mark (by decide : '\x7d' ∈ marks), take, reread, rereadMembers]
  | .object ((key, t) :: members), hn, hclean, st, frames, depth, rest, hst, hrest => by
    have hn := Bool.and_eq_true_iff.mp hn
    obtain ⟨hm, hmembers⟩ := List.forall_mem_append.mp hclean
    have hopen : take st (.mark '\x7b') = some (frames, .member []) := hst _ (by decide)
    simp only [text_object_cons, List.cons_append, List.append_assoc]
    rw [readFrom_mark (by decide), hopen, Option.bind_some, readFrom_line,
      readFrom_memberText key t hn.1 hm (ends_moreText (ends_line _ _)), reread, rereadMembers]
    cases readKey chars key with
    | none => rfl
    | some k =>
      cases reread chars t with
      | none => rfl
      | some r =>
        simp only [Option.bind_some, List.nil_append]
        rw [readFrom_moreMembers members hn.2 hmembers (ends_line _ _)]
        cases rereadMembers chars members with
        | none => rfl
        | some rs =>
          simp [readFrom_line, readFrom_mark (by decide : '\x7d' ∈ marks), take]
  | .back _, hn, _, _, _, _, _, _, _ => by cases hn

theorem readFrom_moreItems : (ts : List Tree) → Tree.everyItem (fun _ => true) (· ≠ "") ts →
    (∀ s ∈ Tree.itemParts ts, Clean chars s) →
    ∀ {frames : List Frame} {before : List Tree} {depth : Nat} {rest : List Char}, Ends rest →
      readFrom chars (frames, .afterItem before) (moreText depth (text depth) ts ++ rest) =
        (rereadItems chars ts).bind fun rs => readFrom chars (frames, .afterItem (before ++ rs)) rest
  | [], _, _, frames, before, depth, rest, _ => by simp [moreText, rereadItems]
  | t :: ts, hn, hclean, frames, before, depth, rest, hrest => by
    have hn := Bool.and_eq_true_iff.mp hn
    obtain ⟨ht, hts⟩ := List.forall_mem_append.mp hclean
    have hmore : moreText depth (text depth) (t :: ts) ++ rest =
        ',' :: (line depth ++ (text depth t ++ (moreText depth (text depth) ts ++ rest))) := by
      simp [moreText]
    rw [hmore, readFrom_mark (by decide)]
    simp only [take, Token.mark.injEq, Char.reduceEq, if_false, if_true, Option.bind_some]
    rw [readFrom_line, readFrom_text t hn.1 ht (ready_item frames before) (ends_moreText hrest),
      rereadItems]
    cases reread chars t with
    | none => rfl
    | some r =>
      simp only [Option.bind_some, put_array]
      rw [readFrom_moreItems ts hn.2 hts hrest]
      cases rereadItems chars ts with
      | none => rfl
      | some rs => simp

theorem readFrom_memberText (key : String) : (t : Tree) → t.isNested →
    (∀ s ∈ key :: t.parts, Clean chars s) →
    ∀ {frames : List Frame} {before : List (String × Tree)} {depth : Nat} {rest : List Char}, Ends rest →
      readFrom chars (frames, .member before) (memberText depth (key, t) ++ rest) =
        (readKey chars key).bind fun k => (reread chars t).bind fun r =>
          readFrom chars (frames, .afterMember (before ++ [(k, r)])) rest
  | t, hn, hclean, frames, before, depth, rest, hrest => by
    obtain ⟨hkey, ht⟩ := List.forall_mem_cons.mp hclean
    simp only [memberText, List.append_assoc, List.cons_append]
    rw [readFrom_key hkey]
    simp only [readFrom_blank (by decide : ' ' ∈ ['\n', ' ']),
      readFrom_text t hn ht (ready_value _) hrest, put_object]

theorem readFrom_moreMembers : (ts : List (String × Tree)) →
    Tree.everyMember (fun _ => true) (· ≠ "") ts → (∀ s ∈ Tree.memberParts ts, Clean chars s) →
    ∀ {frames : List Frame} {before : List (String × Tree)} {depth : Nat} {rest : List Char}, Ends rest →
      readFrom chars (frames, .afterMember before) (moreText depth (memberText depth) ts ++ rest) =
        (rereadMembers chars ts).bind fun rs => readFrom chars (frames, .afterMember (before ++ rs)) rest
  | [], _, _, frames, before, depth, rest, _ => by simp [moreText, rereadMembers]
  | (key, t) :: ts, hn, hclean, frames, before, depth, rest, hrest => by
    have hn := Bool.and_eq_true_iff.mp hn
    obtain ⟨hm, hts⟩ := List.forall_mem_append.mp hclean
    have hmore : moreText depth (memberText depth) ((key, t) :: ts) ++ rest =
        ',' :: (line depth ++ (memberText depth (key, t) ++
          (moreText depth (memberText depth) ts ++ rest))) := by
      simp [moreText]
    rw [hmore, readFrom_mark (by decide)]
    simp only [take, Token.mark.injEq, Char.reduceEq, if_false, if_true, Option.bind_some]
    rw [readFrom_line, readFrom_memberText key t hn.1 hm (ends_moreText hrest), rereadMembers]
    cases readKey chars key with
    | none => rfl
    | some k =>
      cases reread chars t with
      | none => rfl
      | some r =>
        simp only [Option.bind_some]
        rw [readFrom_moreMembers ts hn.2 hts hrest]
        cases rereadMembers chars ts with
        | none => rfl
        | some rs => simp

end

/-- What is read of a literal whose parts have the characters of names and numbers. -/
theorem read_of_clean {t : Tree} (hn : t.isNested) (hclean : ∀ s ∈ t.parts, Clean chars s) :
    read chars (String.ofList (text 0 t)) = reread chars t := by
  have hread : read chars (String.ofList (text 0 t)) =
      (readFrom chars ([], .value) (text 0 t ++ [])).bind result := by
    rw [read, String.toList_ofList, readFrom, List.append_nil, ← tokens, Option.bind_assoc]
  rw [hread, readFrom_text t hn hclean (ready_value _) (by simp [Ends])]
  cases reread chars t <;> rfl

/-! ### What is read as it is -/

theorem readLeaf_eq_iff {s : String} : readLeaf chars s = some (.text s) ↔ isLeaf chars s := by
  rw [isLeaf, Bool.and_eq_true, ← tokens_bare_name_iff, decide_eq_true_eq, readLeaf]
  split
  · next x h =>
    rw [h]
    by_cases hx : x ∈ reserved <;>
    · simp only [hx, if_true, if_false, Option.some.injEq, List.cons.injEq, and_true, Token.name.injEq,
        reduceCtorEq, false_iff, not_and, Decidable.not_not, Tree.scalar.injEq, Scalar.text.injEq,
        iff_self_and]
      rintro rfl
      exact hx
  · next h =>
    simp only [reduceCtorEq, false_iff, not_and]
    exact fun h' => (h s h').elim

theorem readKey_eq_iff {s : String} (hs : Clean chars s) : readKey chars s = some s ↔ isKey chars s := by
  rw [isKey, Bool.or_eq_true, ← tokens_bare_name_iff, ← tokens_bare_number_iff, readKey]
  split
  · next tok h =>
    have htok := (tokens_of_clean hs h).2.1 tok List.mem_cons_self
    cases tok <;> simp_all [Token.key?, Token.isWord]
  · next h =>
    simp only [reduceCtorEq, false_iff, not_or]
    exact ⟨h _, h _⟩

mutual

theorem reread_eq_iff : (t : Tree) → t.isNested → (∀ s ∈ t.parts, Clean chars s) →
    (reread chars t = some t ↔ t.every (isKey chars) (isLeaf chars))
  | .scalar s, hn, _ => by
    cases s with
    | text s => exact readLeaf_eq_iff
    | _ => cases hn
  | .array items, hn, hclean => by
    rw [reread, Tree.every, ← rereadItems_eq_iff items hn hclean]
    cases rereadItems chars items <;> simp
  | .object members, hn, hclean => by
    rw [reread, Tree.every, ← rereadMembers_eq_iff members hn hclean]
    cases rereadMembers chars members <;> simp
  | .back _, hn, _ => by cases hn

theorem rereadItems_eq_iff : (ts : List Tree) → Tree.everyItem (fun _ => true) (· ≠ "") ts →
    (∀ s ∈ Tree.itemParts ts, Clean chars s) →
    (rereadItems chars ts = some ts ↔ Tree.everyItem (isKey chars) (isLeaf chars) ts)
  | [], _, _ => by simp [rereadItems, Tree.everyItem]
  | t :: ts, hn, hclean => by
    have hn := Bool.and_eq_true_iff.mp hn
    obtain ⟨ht, hts⟩ := List.forall_mem_append.mp hclean
    rw [rereadItems, Tree.everyItem, Bool.and_eq_true, ← reread_eq_iff t hn.1 ht,
      ← rereadItems_eq_iff ts hn.2 hts]
    cases reread chars t <;> cases rereadItems chars ts <;> simp

theorem rereadMembers_eq_iff : (ts : List (String × Tree)) →
    Tree.everyMember (fun _ => true) (· ≠ "") ts → (∀ s ∈ Tree.memberParts ts, Clean chars s) →
    (rereadMembers chars ts = some ts ↔ Tree.everyMember (isKey chars) (isLeaf chars) ts)
  | [], _, _ => by simp [rereadMembers, Tree.everyMember]
  | (key, t) :: ts, hn, hclean => by
    have hn := Bool.and_eq_true_iff.mp hn
    obtain ⟨hm, hts⟩ := List.forall_mem_append.mp hclean
    obtain ⟨hkey, ht⟩ := List.forall_mem_cons.mp hm
    rw [rereadMembers, Tree.everyMember, Bool.and_eq_true, Bool.and_eq_true, ← readKey_eq_iff hkey,
      ← reread_eq_iff t hn.1 ht, ← rereadMembers_eq_iff ts hn.2 hts]
    cases readKey chars key <;> cases reread chars t <;> cases rereadMembers chars ts <;>
      simp [and_assoc]

end

end ApiRecords.ObjectNotation
