import ApiRecords.Proofs.Objects.Reading

/-!
Quotes of a literal, counted. A text among the tokens takes two of them to begin and to end, and one for
each that it holds: as it is, or by an escape that a quote left without its fellow has begun. As the keys
and leaves that are written hold no more than that, none that is read as it was written is such a text.
-/

namespace ApiRecords.ObjectNotation

open Text

/-! ### Counting -/

def quoteCount (s : String) : Nat := s.toList.countP (· ∈ quotes)

def quoteUnits (units : List Nat) : Nat := units.countP (· ∈ [0x22, 0x27])

def totalQuotes : List String → Nat
  | [] => 0
  | s :: parts => quoteCount s + totalQuotes parts

theorem totalQuotes_append (parts parts' : List String) :
    totalQuotes (parts ++ parts') = totalQuotes parts + totalQuotes parts' := by
  induction parts with
  | nil => simp [totalQuotes]
  | cons s parts ih => simp [totalQuotes, ih, Nat.add_assoc]

/-- The quotes of a text, with those around it. -/
def Token.cost : Token → Nat
  | text units => quoteUnits units + 2
  | _ => 0

def totalCost : List Token → Nat
  | [] => 0
  | tok :: ts => tok.cost + totalCost ts

theorem totalCost_append (ts us : List Token) : totalCost (ts ++ us) = totalCost ts + totalCost us := by
  induction ts with
  | nil => simp [totalCost]
  | cons tok ts ih => simp [totalCost, ih, Nat.add_assoc]

/-- Whether a text ends at a character that no quote has to pay for. -/
def openingCost (quote : Char) : Nat := if quote ∈ quotes then 1 else 2

/-- The quotes that have been read of a text that has not ended, and one for an escape in it. -/
def Lexing.owed : Lexing → Nat
  | .text quote units | .textZero quote units => quoteUnits units + openingCost quote
  | .textEscape quote units _ => quoteUnits units + openingCost quote + 1
  | _ => 0

/-- What one character may add. -/
def charge (c : Char) : Nat := if c ∈ quotes ∨ c = '\\' then 1 else 0

theorem quoteUnits_append (units units' : List Nat) :
    quoteUnits (units ++ units') = quoteUnits units + quoteUnits units' := List.countP_append

theorem quoteUnits_unitsOf_le (n : Nat) : quoteUnits (unitsOf n) ≤ if n ∈ [0x22, 0x27] then 1 else 0 := by
  unfold unitsOf
  split
  · by_cases h : n ∈ [0x22, 0x27] <;> simp_all [quoteUnits]
  · have hhigh : 0xd800 + (n - 0x10000) / 0x400 ∉ [0x22, 0x27] := by simp; omega
    have hlow : 0xdc00 + (n - 0x10000) % 0x400 ∉ [0x22, 0x27] := by simp; omega
    rw [quoteUnits, List.countP_cons_of_neg (by simpa using hhigh),
      List.countP_cons_of_neg (by simpa using hlow)]
    exact Nat.zero_le _

theorem mem_quotes_iff {c : Char} : c ∈ quotes ↔ c.toNat ∈ [0x22, 0x27] := by
  by_cases hc : c.toNat < 128
  · exact of_ascii (P := fun c => c ∈ quotes ↔ c.toNat ∈ [0x22, 0x27]) (by decide +kernel) hc
  · constructor
    · exact fun h => absurd ((forall_of_all (by decide) : ∀ c ∈ quotes, c.toNat < 128) c h) hc
    · exact fun h => absurd ((by decide : ∀ n ∈ [0x22, 0x27], n < 128) _ h) hc

theorem quoteUnits_char (c : Char) : quoteUnits (unitsOf c.toNat) ≤ charge c := by
  have h := quoteUnits_unitsOf_le c.toNat
  unfold charge
  by_cases hc : c ∈ quotes
  · rw [if_pos (mem_quotes_iff.mp hc)] at h
    rwa [if_pos (.inl hc)]
  · rw [if_neg (mt mem_quotes_iff.mpr hc)] at h
    omega

/-! ### What a character adds -/

variable {chars : NameChars} {l l' : Lexing} {ts : List Token} {c : Char}

theorem cost_finish (h : finish l = some ts) : totalCost ts = 0 := by
  cases l with
  | number read =>
    obtain ⟨x, -, rfl⟩ := Option.map_eq_some_iff.mp h
    rfl
  | between | line | name => cases h; rfl
  | _ => cases h

theorem owed_start (h : start chars c = some (ts, l')) : totalCost ts + l'.owed ≤ charge c := by
  unfold start at h
  split at h
  · cases h
    exact Nat.zero_le _
  split at h
  · cases h
    exact Nat.zero_le _
  split at h
  · next hc =>
    cases h
    simp [totalCost, Lexing.owed, quoteUnits, openingCost, charge, hc]
  iterate 4
    split at h
    · cases h
      exact Nat.zero_le _
  cases h

theorem owed_finishAt (h : finishAt chars l c = some (ts, l')) : totalCost ts + l'.owed ≤ charge c := by
  obtain ⟨us, hus, h⟩ := Option.bind_eq_some_iff.mp h
  obtain ⟨r, hr, h⟩ := Option.map_eq_some_iff.mp h
  cases h
  rw [totalCost_append, cost_finish hus, Nat.zero_add]
  exact owed_start hr

theorem owed_extended {quote : Char} {units : List Nat} (h : extended quote units c = some (ts, l')) :
    totalCost ts + l'.owed ≤ quoteUnits units + openingCost quote + charge c := by
  unfold extended at h
  split at h
  · next hc =>
    subst hc
    cases h
    by_cases hc : c ∈ quotes <;>
      simp [totalCost, Token.cost, Lexing.owed, openingCost, charge, hc]
  split at h
  · next hc =>
    cases h
    simp [totalCost, Lexing.owed, charge, hc]
  split at h
  · cases h
  · cases h
    have := quoteUnits_char c
    simp only [totalCost, Lexing.owed, quoteUnits_append]
    omega

theorem quoteUnits_letterUnit {n : Nat} (h : letterUnit c = some n) : quoteUnits [n] = 0 := by
  unfold letterUnit at h
  split at h <;> cases h <;> rfl

theorem owed_escaped {quote : Char} {units : List Nat} (h : escaped quote units c = some l') :
    l'.owed ≤ quoteUnits units + openingCost quote + 1 + charge c := by
  unfold escaped at h
  -- an escape whose code is to come owes what its backslash did
  split at h
  · cases h
    exact Nat.le_add_right _ _
  split at h
  · cases h
    exact Nat.le_add_right _ _
  split at h
  · cases h
    exact Nat.le_trans (Nat.le_add_right _ 1) (Nat.le_add_right _ _)
  split at h
  · cases h
  split at h
  · cases h
    exact Nat.le_trans (Nat.le_add_right _ 1) (Nat.le_add_right _ _)
  · cases h
    have hunits : quoteUnits (((letterUnit c).map ([·])).getD (unitsOf c.toNat)) ≤ charge c := by
      cases h : letterUnit c with
      | none => exact quoteUnits_char c
      | some n => simp [quoteUnits_letterUnit h]
    simp only [Lexing.owed, quoteUnits_append]
    omega

/-- What a character adds is at most one quote, and that only if it is one, or a backslash. -/
theorem owed_next (h : next chars l c = some (ts, l')) : totalCost ts + l'.owed ≤ l.owed + charge c := by
  cases advance_of_next h with
  | start h => simpa [Lexing.owed] using owed_start h
  | outside h => cases l' <;> first | exact Nat.zero_le _ | cases h
  | name | nameBackslash | nameEscape | number => exact Nat.zero_le _
  | addToName hadd =>
    obtain ⟨_, rfl⟩ := name_of_addToName hadd
    exact Nat.zero_le _
  | finishAt h => exact Nat.le_trans (owed_finishAt h) (Nat.le_add_left _ _)
  | text h => exact owed_extended h
  | textZero h => simpa [Lexing.owed, quoteUnits_append, quoteUnits] using owed_extended h
  | escaped h => simpa [totalCost, Lexing.owed] using owed_escaped h
  | textEscape => simp [totalCost, Lexing.owed]
  | @unit _ _ _ n =>
    have hn := quoteUnits_unitsOf_le n
    simp only [totalCost, Lexing.owed, quoteUnits_append]
    split at hn <;> omega

/-! ### Escapes -/

/-- Whether a text goes on with its own characters. -/
def Lexing.inText : Lexing → Bool
  | .text _ _ | .textZero _ _ => true
  | _ => false

/-- A letter of an escape, or a second backslash. -/
theorem escaped_of_mem (hc : c ∈ ['\\', 'n', 'r', 't', 'b', 'f']) (quote : Char) (units : List Nat) :
    ∃ n, escaped quote units c = some (.text quote (units ++ [n])) ∧ quoteUnits [n] = 0 := by
  simp only [List.mem_cons, List.not_mem_nil, or_false] at hc
  rcases hc with rfl | rfl | rfl | rfl | rfl | rfl
  · exact ⟨0x5c, rfl, rfl⟩
  · exact ⟨10, rfl, rfl⟩
  · exact ⟨13, rfl, rfl⟩
  · exact ⟨9, rfl, rfl⟩
  · exact ⟨8, rfl, rfl⟩
  · exact ⟨12, rfl, rfl⟩

/-- A backslash begins an escape in a text, or adds nothing, and less than nothing where a text goes on. -/
theorem backslash_cases (h : next chars l '\\' = some (ts, l')) :
    (∃ quote units, ts = [] ∧ l' = .textEscape quote units .start ∧ l.inText ∧
      quoteUnits units + openingCost quote ≤ l.owed) ∨
    totalCost ts + l'.owed + (if l'.inText then 1 else 0) ≤ l.owed := by
  have hextended {quote : Char} {units : List Nat} (hl : l.inText)
      (howed : quoteUnits units + openingCost quote ≤ l.owed)
      (h : extended quote units '\\' = some (ts, l')) :
      (∃ quote units, ts = [] ∧ l' = .textEscape quote units .start ∧ l.inText ∧
        quoteUnits units + openingCost quote ≤ l.owed) ∨
      totalCost ts + l'.owed + (if l'.inText then 1 else 0) ≤ l.owed := by
    unfold extended at h
    split at h
    · next hc =>
      subst hc
      cases h
      exact .inr howed
    · cases h
      exact .inl ⟨quote, units, rfl, rfl, hl, howed⟩
  cases l with
  | between =>
    cases start_backslash.symm.trans h
    exact .inr (Nat.le_refl _)
  | slash => simp [next] at h
  | line | block | star =>
    cases h
    exact .inr (Nat.le_refl _)
  | name read =>
    rw [next, if_pos rfl] at h
    cases h
    exact .inr (Nat.le_refl _)
  | nameEscape read e => cases e <;> simp [next, Escape.next, hexValue?] at h
  | number read => simp [next, continuesNumber] at h
  | text quote units => exact hextended rfl (Nat.le_refl _) h
  | textEscape quote units e =>
    cases e with
    | start =>
      obtain ⟨n, hn, hnone⟩ := escaped_of_mem (by decide : '\\' ∈ _) quote units
      rw [next, hn] at h
      cases h
      refine .inr ?_
      simp only [totalCost, Lexing.owed, quoteUnits_append, hnone, Lexing.inText]
      simp
    | _ => simp [next, Escape.next, hexValue?] at h
  | textZero quote units =>
    rw [next, if_neg (by decide)] at h
    exact hextended rfl (by simp [Lexing.owed, quoteUnits]) h

theorem owed_backslash (h : next chars l '\\' = some (ts, l')) :
    totalCost ts + l'.owed ≤ l.owed + (if l.inText then 1 else 0) := by
  rcases backslash_cases h with ⟨quote, units, rfl, rfl, hl, howed⟩ | howed
  · have hescape : (Lexing.textEscape quote units .start).owed =
        quoteUnits units + openingCost quote + 1 := rfl
    rw [hescape, if_pos hl, totalCost]
    omega
  · omega

/-- What a text adds at most, wherever it stands. -/
def Adds (chars : NameChars) (cs : List Char) (n : Nat) : Prop :=
  ∀ l ts l', run chars l cs = some (ts, l') → totalCost ts + l'.owed ≤ l.owed + n

namespace Adds

variable {cs cs' : List Char} {m n : Nat}

theorem nil : Adds chars [] 0 := fun l ts l' h => by
  cases h
  exact Nat.le_of_eq (Nat.zero_add _)

theorem char (c : Char) : Adds chars [c] (charge c) := fun l ts l' h => by
  rw [run_singleton] at h
  exact owed_next h

theorem append (h : Adds chars cs m) (h' : Adds chars cs' n) : Adds chars (cs ++ cs') (m + n) :=
  fun l ts l' hrun => by
    obtain ⟨us, l₁, vs, hus, hvs, rfl⟩ := run_append_eq_some.mp hrun
    have := h _ _ _ hus
    have := h' _ _ _ hvs
    rw [totalCost_append]
    omega

theorem ofForall (h : ∀ c ∈ cs, charge c = 0) : Adds chars cs 0 := by
  induction cs with
  | nil => exact nil
  | cons c cs ih =>
    obtain ⟨hc, hcs⟩ := List.forall_mem_cons.mp h
    have hchar : Adds chars [c] 0 := hc ▸ char c
    exact hchar.append (ih hcs)

/-- An escape that adds no quote to a text it stands in. -/
theorem escape (hcs : Adds chars cs 0)
    (h : ∀ quote units ts l', run chars (.textEscape quote units .start) cs = some (ts, l') →
      totalCost ts + l'.owed ≤ quoteUnits units + openingCost quote) :
    Adds chars ('\\' :: cs) 0 := fun l ts l' hrun => by
  obtain ⟨us, l₁, vs, hus, hvs, rfl⟩ := run_cons_eq_some.mp hrun
  rw [totalCost_append]
  rcases backslash_cases hus with ⟨quote, units, rfl, rfl, -, howed⟩ | howed
  · have := h _ _ _ _ hvs
    simp only [totalCost]
    omega
  · have := hcs _ _ _ hvs
    omega

theorem letter (hc : c ∈ ['n', 'r', 't', 'b', 'f']) : Adds chars ['\\', c] 0 := by
  have hcharge : ∀ c ∈ ['n', 'r', 't', 'b', 'f'], charge c = 0 := forall_of_all (by decide)
  refine escape (hcharge c hc ▸ char c) fun quote units ts l' h => ?_
  obtain ⟨n, hn, hnone⟩ := escaped_of_mem (List.mem_cons_of_mem _ hc) quote units
  rw [run_singleton, next, hn] at h
  cases h
  simp [totalCost, Lexing.owed, quoteUnits_append, hnone]

theorem code (hn : n < 0x10000) (hquote : n ∉ [0x22, 0x27]) :
    Adds chars ('\\' :: 'u' :: hex 4 n) 0 := by
  have hdigits : ∀ c ∈ 'u' :: hex 4 n, charge c = 0 := by
    have hdigit : ∀ d < 16, charge (hexDigit d) = 0 := by decide
    have hu : charge 'u' = 0 := by decide
    have hmod := fun k : Nat => hdigit (k % 16) (Nat.mod_lt _ (by decide))
    simp [hex_four, hmod, hu]
  refine escape (ofForall hdigits) fun quote units ts l' h => ?_
  rw [run_textEscape chars hn] at h
  cases h
  have hnone : quoteUnits [n] = 0 := by simpa [quoteUnits] using hquote
  simp [totalCost, Lexing.owed, quoteUnits_append, hnone]

/-- The second of two backslashes has nothing to add to what the first has begun. -/
theorem backslashes : Adds chars ['\\', '\\'] 0 := fun l ts l' hrun => by
  obtain ⟨us, l₁, vs, hus, hvs, rfl⟩ := run_cons_eq_some.mp hrun
  rw [run_singleton] at hvs
  rw [totalCost_append]
  rcases backslash_cases hus with ⟨quote, units, rfl, rfl, -, howed⟩ | howed
  · obtain ⟨n, hn, hnone⟩ := escaped_of_mem (by decide : '\\' ∈ _) quote units
    rw [next, hn] at hvs
    cases hvs
    simpa [totalCost, Lexing.owed, quoteUnits_append, hnone] using howed
  · have := owed_backslash hvs
    omega

theorem bareChar (c : Char) : Adds chars (bareChar c) (if c ∈ quotes then 1 else 0) := by
  have hc := bareChar_cases c
  have hplain {cs : List Char} (h : c ∉ quotes) (hcs : Adds chars cs 0) :
      Adds chars cs (if c ∈ quotes then 1 else 0) := by rwa [if_neg h]
  have hnot (h : c.toNat < 0x20 ∨ 0x7f ≤ c.toNat) : c.toNat ∉ [0x22, 0x27] := by
    simp
    omega
  generalize ObjectNotation.bareChar c = cs at hc
  cases hc with
  | quote hc =>
    subst hc
    exact char '\\'
  | backslash hc =>
    subst hc
    exact hplain (by decide) backslashes
  | letter hc hd => exact hplain (mt mem_quotes_iff.mp (hnot (.inl hc))) (letter hd)
  | code hc hsmall => exact hplain (mt mem_quotes_iff.mp (hnot hc)) (code hsmall (hnot hc))
  | codes hc hhigh hlow =>
    refine hplain (mt mem_quotes_iff.mp (hnot (.inr (by omega)))) ?_
    exact (code (by omega) (by simp; omega)).append (code (by omega) (by simp; omega))
  | self hc hquote hbackslash =>
    have hcharge : charge c = if c ∈ quotes then 1 else 0 := by simp [charge, hbackslash]
    exact hcharge ▸ char c

theorem bare (s : String) : Adds chars (bare s) (quoteCount s) := by
  rw [ObjectNotation.bare, quoteCount]
  induction s.toList with
  | nil => exact nil
  | cons c cs ih =>
    rw [List.flatMap_cons, List.countP_cons, Nat.add_comm]
    simpa using (bareChar c).append ih

theorem line (depth : Nat) : Adds chars (line depth) 0 := ofForall fun c hc => by
  have hblank : ∀ c ∈ ['\n', ' '], charge c = 0 := forall_of_all (by decide)
  refine hblank c ?_
  rcases List.mem_cons.mp hc with rfl | hc
  · decide
  · rw [(List.mem_replicate.mp hc).2]
    decide

theorem marks {cs : List Char} (h : cs.all (· ∈ marks ++ [' '])) : Adds chars cs 0 :=
  ofForall fun c hc =>
    (forall_of_all (by decide) : ∀ c ∈ ObjectNotation.marks ++ [' '], charge c = 0) c
      (forall_of_all h c hc)

mutual

/-- The text of a tree adds no more quotes than its parts hold. -/
theorem text : (t : Tree) → t.isNested → ∀ depth : Nat, Adds chars (text depth t) (totalQuotes t.parts)
  | .scalar s, hn, depth => by
    cases s with
    | text s => simpa [text_leaf, Tree.parts, totalQuotes] using bare s
    | _ => cases hn
  | .array [], _, depth => by
    rw [text_array_nil]
    exact marks (by decide)
  | .array (t :: items), hn, depth => by
    have hn := Bool.and_eq_true_iff.mp hn
    have hopen : Adds chars ['['] 0 := marks (by decide)
    have hclose : Adds chars [']'] 0 := marks (by decide)
    rw [text_array_cons]
    simpa [Tree.parts, Tree.itemParts, totalQuotes_append] using
      ((((hopen.append (line (depth + 1))).append (text t hn.1 (depth + 1))).append
        (moreItems items hn.2 (depth + 1))).append (line depth)).append hclose
  | .object [], _, depth => by
    rw [text_object_nil]
    exact marks (by decide)
  | .object ((key, t) :: members), hn, depth => by
    have hn := Bool.and_eq_true_iff.mp hn
    have hopen : Adds chars ['\x7b'] 0 := marks (by decide)
    have hclose : Adds chars ['\x7d'] 0 := marks (by decide)
    rw [text_object_cons]
    simpa [Tree.parts, Tree.memberParts, totalQuotes, totalQuotes_append, Nat.add_assoc] using
      ((((hopen.append (line (depth + 1))).append (member key t hn.1 (depth + 1))).append
        (moreMembers members hn.2 (depth + 1))).append (line depth)).append hclose
  | .back _, hn, _ => by cases hn

theorem member (key : String) : (t : Tree) → t.isNested → ∀ depth : Nat,
    Adds chars (memberText depth (key, t)) (totalQuotes (key :: t.parts))
  | t, hn, depth => by
    have hcolon : Adds chars [':', ' '] 0 := marks (by decide)
    simpa [memberText, totalQuotes] using ((bare key).append hcolon).append (text t hn depth)

theorem moreItems : (ts : List Tree) → Tree.everyItem (fun _ => true) (· ≠ "") ts → ∀ depth : Nat,
    Adds chars (moreText depth (ObjectNotation.text depth) ts) (totalQuotes (Tree.itemParts ts))
  | [], _, _ => nil
  | t :: ts, hn, depth => by
    have hn := Bool.and_eq_true_iff.mp hn
    have hcomma : Adds chars [','] 0 := marks (by decide)
    simpa [moreText, Tree.itemParts, totalQuotes_append] using
      ((hcomma.append (line depth)).append (text t hn.1 depth)).append (moreItems ts hn.2 depth)

theorem moreMembers : (ts : List (String × Tree)) → Tree.everyMember (fun _ => true) (· ≠ "") ts →
    ∀ depth : Nat, Adds chars (moreText depth (memberText depth) ts) (totalQuotes (Tree.memberParts ts))
  | [], _, _ => nil
  | (key, t) :: ts, hn, depth => by
    have hn := Bool.and_eq_true_iff.mp hn
    have hcomma : Adds chars [','] 0 := marks (by decide)
    simpa [moreText, Tree.memberParts, totalQuotes, totalQuotes_append, Nat.add_assoc] using
      ((hcomma.append (line depth)).append (member key t hn.1 depth)).append (moreMembers ts hn.2 depth)

end

end Adds

/-! ### What is read as it was written -/

theorem mem_of_ofNat {n : Nat} (h : Char.ofNat n ∈ quotes) : n ∈ [0x22, 0x27] := by
  rw [mem_quotes_iff] at h
  by_cases hvalid : n.isValidChar
  · have hn : (Char.ofNat n).toNat = n := congrArg Char.toNat (dif_pos hvalid)
    rwa [hn] at h
  · have hn : (Char.ofNat n).toNat = 0 := congrArg Char.toNat (dif_neg hvalid)
    rw [hn] at h
    cases of_decide_eq_false rfl h

theorem countP_ofNat_cons_le (n : Nat) (cs : List Char) :
    (Char.ofNat n :: cs).countP (· ∈ quotes) ≤
      cs.countP (· ∈ quotes) + if n ∈ [0x22, 0x27] then 1 else 0 := by
  rw [List.countP_cons]
  by_cases hn : Char.ofNat n ∈ quotes
  · simp [hn, mem_of_ofNat hn]
  · simp [hn]

theorem quoteUnits_cons (u : Nat) (units : List Nat) :
    quoteUnits (u :: units) = quoteUnits units + if u ∈ [0x22, 0x27] then 1 else 0 := by
  rw [quoteUnits, List.countP_cons, quoteUnits]
  simp

/-- The characters of a text hold no more quotes than its units. -/
theorem countP_decode_le {units : List Nat} {cs : List Char} (h : decode units = some cs) :
    cs.countP (· ∈ quotes) ≤ quoteUnits units := by
  fun_induction decode generalizing cs with
  | case1 =>
    cases h
    exact Nat.zero_le _
  | case2 u us hu ih =>
    obtain ⟨ds, hds, rfl⟩ := Option.map_eq_some_iff.mp h
    have := ih hds
    have := countP_ofNat_cons_le u ds
    rw [quoteUnits_cons]
    omega
  | case3 => cases h
  | case4 u hu low us hlow ih =>
    obtain ⟨ds, hds, rfl⟩ := Option.map_eq_some_iff.mp h
    have hlarge : 0x10000 + (u - 0xd800) * 0x400 + (low - 0xdc00) ∉ [0x22, 0x27] := by
      simp
      omega
    have := ih hds
    have hfirst := countP_ofNat_cons_le (0x10000 + (u - 0xd800) * 0x400 + (low - 0xdc00)) ds
    rw [if_neg hlarge] at hfirst
    rw [quoteUnits_cons, quoteUnits_cons]
    omega
  | case5 => cases h

theorem quoteCount_of_clean {s : String} (h : Clean chars s) : quoteCount s = 0 := by
  rw [quoteCount, List.countP_eq_zero]
  intro c hc
  have hquotes : ∀ c ∈ quotes, c.toNat < 128 ∧ isClean asciiNames c = false :=
    forall_of_all (by decide)
  simp only [decide_eq_true_eq]
  intro hmem
  have hclean := h c hc
  rw [isClean_ascii (hquotes c hmem).1, (hquotes c hmem).2] at hclean
  cases hclean

def Token.isText : Token → Bool
  | .text _ => true
  | _ => false

/-- A token takes the quotes of what it adds to what is read, and two more where it is a text. -/
theorem totalQuotes_parts_le {ts : List Token} (h : ∀ tok ∈ ts, tok.Spelled chars) :
    totalQuotes (ts.flatMap Token.parts) + 2 * ts.countP Token.isText ≤ totalCost ts := by
  induction ts with
  | nil => exact Nat.le_refl _
  | cons tok ts ih =>
    obtain ⟨htok, hts⟩ := List.forall_mem_cons.mp h
    have htail := ih hts
    have hfirst : totalQuotes tok.parts + (if tok.isText then 2 else 0) ≤ tok.cost := by
      cases tok with
      | mark c => exact Nat.le_refl _
      | name s =>
        simp [totalQuotes, Token.isText, Token.cost, quoteCount_of_clean (clean_of_spellName htok)]
      | number s =>
        have hclean : Clean chars s := IsShown.clean htok
        simp [Token.parts, Token.key?, totalQuotes, Token.isText, Token.cost, quoteCount_of_clean hclean]
      | text units =>
        cases hdecode : decode units with
        | none => simp [Token.parts, Token.key?, hdecode, totalQuotes, Token.isText, Token.cost]
        | some cs =>
          simpa [Token.parts, Token.key?, hdecode, totalQuotes, Token.isText, Token.cost, quoteCount] using
            countP_decode_le hdecode
    rw [List.flatMap_cons, totalQuotes_append, List.countP_cons, totalCost]
    split at hfirst
    · next htext =>
      rw [if_pos htext]
      omega
    · next htext =>
      rw [if_neg htext]
      omega

/-- The keys and leaves of what is read as it was written have the characters of names and numbers: none
was read out of quotes. -/
theorem clean_of_read {t : Tree} (hn : t.isNested)
    (h : read chars (String.ofList (text 0 t)) = some t) : ∀ s ∈ t.parts, Clean chars s := by
  obtain ⟨ts, hts, hparts⟩ := parts_read h
  rw [String.toList_ofList] at hts
  have hspelled := spelled_tokens hts
  have hcost : totalCost ts ≤ totalQuotes t.parts := by
    obtain ⟨⟨us, l⟩, hrun, hend⟩ := Option.bind_eq_some_iff.mp hts
    obtain ⟨vs, hvs, rfl⟩ := Option.map_eq_some_iff.mp hend
    have hadds := Adds.text t hn 0 _ _ _ hrun
    rw [totalCost_append, cost_finish hvs]
    simp only [Lexing.owed] at hadds
    omega
  have hle := totalQuotes_parts_le hspelled
  rw [← hparts] at hle
  have hnone : ts.countP Token.isText = 0 := by omega
  rw [hparts]
  intro s hs
  obtain ⟨tok, htok, hs⟩ := List.mem_flatMap.mp hs
  have hspelled := hspelled tok htok
  have htext := List.countP_eq_zero.mp hnone tok htok
  cases tok with
  | mark c => simp at hs
  | name x =>
    rw [Token.parts_name, List.mem_singleton] at hs
    exact hs ▸ clean_of_spellName hspelled
  | number x =>
    simp only [Token.parts, Token.key?, Option.toList_some, List.mem_singleton] at hs
    exact hs ▸ IsShown.clean hspelled
  | text units => exact absurd rfl htext

end ApiRecords.ObjectNotation
