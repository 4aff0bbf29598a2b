import ApiRecords.Proofs.Objects.Texts
import Mathlib.Tactic.SplitIfs

/-!
Texts that are their own tokens: marks, and characters between quotes that stand for themselves. No token
takes fewer characters than it stands for, and one that is written in another way takes more; so tokens that
account for all characters of a text are read off it as it stands.
-/

namespace ApiRecords.ObjectNotation

/-- A text that has its tokens as they stand, with nothing between them. -/
inductive Verbatim : List Char → List Token → Prop
  | nil : Verbatim [] []
  | mark {c : Char} {cs : List Char} {ts : List Token} (hc : c ∈ marks) (rest : Verbatim cs ts) :
    Verbatim (c :: cs) (.mark c :: ts)
  | text {quote : Char} {inside cs : List Char} {ts : List Token} (hquote : quote ∈ quotes)
    (hinside : ∀ c ∈ inside, c ∉ [quote, '\\', '\n', '\r']) (rest : Verbatim cs ts) :
    Verbatim (quote :: inside ++ quote :: cs) (.text (units inside) :: ts)

variable {chars : NameChars} {l l' : Lexing} {ts : List Token} {c : Char}

theorem tokensFrom_cons (l : Lexing) (c : Char) (cs : List Char) :
    tokensFrom chars l (c :: cs) =
      (next chars l c).bind fun (ts, l) => (tokensFrom chars l cs).map (ts ++ ·) := by
  rw [← List.singleton_append, tokensFrom_append, run_singleton]

theorem tokensFrom_cons_of_next {l₁ : Lexing} (h : next chars l c = some (ts, l₁)) (cs : List Char) :
    tokensFrom chars l (c :: cs) = (tokensFrom chars l₁ cs).map (ts ++ ·) := by
  rw [tokensFrom_cons, h, Option.bind_some]

theorem tokensFrom_append_of_run {l₁ : Lexing} {cs : List Char} (h : run chars l cs = some (ts, l₁))
    (cs' : List Char) :
    tokensFrom chars l (cs ++ cs') = (tokensFrom chars l₁ cs').map (ts ++ ·) := by
  rw [tokensFrom_append, h, Option.bind_some]

theorem next_mark (hc : c ∈ marks) : next chars .between c = some ([.mark c], .between) := by
  have hascii : ∀ c ∈ marks, c.toNat < 128 ∧ start asciiNames c = some ([.mark c], .between) :=
    forall_of_all (by decide)
  rw [next, start_eq_ascii (hascii c hc).1, (hascii c hc).2]

theorem next_quote (hc : c ∈ quotes) : next chars .between c = some ([], .text c []) := by
  have hascii : ∀ c ∈ quotes, c.toNat < 128 ∧ start asciiNames c = some ([], .text c []) :=
    forall_of_all (by decide)
  rw [next, start_eq_ascii (hascii c hc).1, (hascii c hc).2]

theorem next_inside {quote : Char} (hc : c ∉ [quote, '\\', '\n', '\r']) (read : List Nat) :
    next chars (.text quote read) c = some ([], .text quote (read ++ unitsOf c.toNat)) := by
  simp only [List.mem_cons, List.not_mem_nil, or_false, not_or] at hc
  rw [next, extended, if_neg hc.1, if_neg hc.2.1, if_neg (not_or.mpr hc.2.2)]

theorem next_close (quote : Char) (read : List Nat) :
    next chars (.text quote read) quote = some ([.text read], .between) := by
  rw [next, extended, if_pos rfl]

theorem tokensFrom_inside {quote : Char} {inside : List Char}
    (h : ∀ c ∈ inside, c ∉ [quote, '\\', '\n', '\r']) (read : List Nat) (cs : List Char) :
    tokensFrom chars (.text quote read) (inside ++ cs) =
      tokensFrom chars (.text quote (read ++ units inside)) cs := by
  induction inside generalizing read with
  | nil => simp [units]
  | cons c inside ih =>
    obtain ⟨hc, hinside⟩ := List.forall_mem_cons.mp h
    rw [List.cons_append, tokensFrom_cons_of_next (next_inside hc read), ih hinside, units, units,
      List.flatMap_cons, ← List.append_assoc]
    exact Option.map_id'

theorem Verbatim.tokens_eq {cs : List Char} (h : Verbatim cs ts) : tokens chars cs = some ts := by
  induction h with
  | nil => rfl
  | mark hc _ ih =>
    rw [tokens, tokensFrom_cons_of_next (next_mark hc), ← tokens, ih]
    rfl
  | @text quote inside cs ts hquote hinside _ ih =>
    rw [tokens, List.cons_append, tokensFrom_cons_of_next (next_quote hquote), tokensFrom_inside hinside,
      tokensFrom_cons_of_next (next_close quote _), ← tokens, ih]
    rfl

/-! ### What tokens take -/

/-- Whether a unit is the second half of a character. -/
def isLow (u : Nat) : Bool := 0xdc00 ≤ u && u < 0xe000

/-- How many characters units stand for, at most. -/
def charCount (units : List Nat) : Nat := units.countP fun u => !isLow u

theorem charCount_append (units units' : List Nat) :
    charCount (units ++ units') = charCount units + charCount units' := List.countP_append

theorem charCount_singleton_le (u : Nat) : charCount [u] ≤ 1 := List.countP_le_length

theorem charCount_cons_le (u : Nat) (us : List Nat) : charCount us ≤ charCount (u :: us) :=
  (List.sublist_cons_self u us).countP_le

theorem charCount_cons_of_not {u : Nat} (h : isLow u = false) (us : List Nat) :
    charCount (u :: us) = charCount us + 1 :=
  List.countP_cons_of_pos (by rw [h]; rfl)

theorem charCount_unitsOf_le (n : Nat) : charCount (unitsOf n) ≤ 1 := by
  unfold unitsOf
  split
  · exact charCount_singleton_le n
  · have hlow : isLow (0xdc00 + (n - 0x10000) % 0x400) := by
      simp only [isLow, Bool.and_eq_true, decide_eq_true_eq]
      omega
    have hnone : charCount [0xdc00 + (n - 0x10000) % 0x400] = 0 :=
      List.countP_cons_of_neg (by rw [hlow]; simp)
    rw [← List.singleton_append, charCount_append, hnone, Nat.add_zero]
    exact charCount_singleton_le _

theorem length_le_of_decode {units : List Nat} {cs : List Char} (h : decode units = some cs) :
    cs.length ≤ charCount units := by
  fun_induction decode generalizing cs with
  | case1 =>
    cases h
    exact Nat.zero_le _
  | case2 u us hu ih =>
    obtain ⟨ds, hds, rfl⟩ := Option.map_eq_some_iff.mp h
    have hsingle : isLow u = false := by
      simp only [Nat.isValidChar] at hu
      simp only [isLow, Bool.and_eq_false_iff, decide_eq_false_iff_not]
      omega
    rw [charCount_cons_of_not hsingle]
    exact Nat.succ_le_succ (ih hds)
  | case3 => cases h
  | case4 u hu low us hlow ih =>
    obtain ⟨ds, hds, rfl⟩ := Option.map_eq_some_iff.mp h
    have hhigh : isLow u = false := by
      simp only [isLow, Bool.and_eq_false_iff, decide_eq_false_iff_not]
      omega
    rw [charCount_cons_of_not hhigh]
    exact Nat.succ_le_succ (Nat.le_trans (ih hds) (charCount_cons_le low us))
  | case5 => cases h

/-- The least number of characters that a token takes. -/
def Token.extent : Token → Nat
  | mark _ => 1
  | text units => charCount units + 2
  | _ => 0

def totalExtent : List Token → Nat
  | [] => 0
  | tok :: ts => tok.extent + totalExtent ts

@[simp] theorem totalExtent_append (ts us : List Token) :
    totalExtent (ts ++ us) = totalExtent ts + totalExtent us := by
  induction ts with
  | nil => simp [totalExtent]
  | cons tok ts ih => simp [totalExtent, ih, Nat.add_assoc]

/-- The characters that a text has taken at least, where it has not ended. -/
def Lexing.extent : Lexing → Nat
  | .text _ units | .textEscape _ units _ => charCount units + 1
  | .textZero _ units => charCount units + 2
  | _ => 0

theorem extent_finish (h : finish l = some ts) : totalExtent ts = 0 := by
  cases l with
  | number read =>
    obtain ⟨x, -, rfl⟩ := Option.map_eq_some_iff.mp h
    rfl
  | between | line | name => cases h; rfl
  | _ => cases h

theorem extent_start (h : start chars c = some (ts, l')) : totalExtent ts + l'.extent ≤ 1 := by
  unfold start at h
  split_ifs at h <;> cases h <;> simp [totalExtent, Token.extent, Lexing.extent, charCount]

theorem extent_finishAt (h : finishAt chars l c = some (ts, l')) : totalExtent ts + l'.extent ≤ 1 := by
  obtain ⟨us, hus, h⟩ := Option.bind_eq_some_iff.mp h
  obtain ⟨r, hr, h⟩ := Option.map_eq_some_iff.mp h
  cases h
  rw [totalExtent_append, extent_finish hus, Nat.zero_add]
  exact extent_start hr

theorem extent_extended {quote : Char} {units : List Nat} (h : extended quote units c = some (ts, l')) :
    totalExtent ts + l'.extent ≤ charCount units + 2 := by
  have hc := charCount_unitsOf_le c.toNat
  unfold extended at h
  split_ifs at h <;> cases h <;>
    simp only [totalExtent, Token.extent, Lexing.extent, charCount_append] <;> omega

theorem extent_escaped {quote : Char} {units : List Nat} (h : escaped quote units c = some l') :
    l'.extent ≤ charCount units + 2 := by
  have hunits : charCount (((letterUnit c).map ([·])).getD (unitsOf c.toNat)) ≤ 1 := by
    cases letterUnit c with
    | none => exact charCount_unitsOf_le c.toNat
    | some n => exact charCount_singleton_le n
  unfold escaped at h
  split_ifs at h <;> cases h <;> simp only [Lexing.extent, charCount_append] <;> omega

/-- A character adds no more than itself. -/
theorem extent_next (h : next chars l c = some (ts, l')) : totalExtent ts + l'.extent ≤ l.extent + 1 := by
  cases advance_of_next h with
  | start h => simpa [Lexing.extent] using extent_start h
  | outside h => cases l' <;> first | exact Nat.zero_le _ | cases h
  | name | nameBackslash | nameEscape | number => exact Nat.zero_le _
  | addToName hadd =>
    obtain ⟨_, rfl⟩ := name_of_addToName hadd
    exact Nat.zero_le _
  | finishAt h => exact Nat.le_trans (extent_finishAt h) (Nat.le_add_left _ _)
  | text h => exact extent_extended h
  | @textZero _ units _ _ h =>
    have hextended := extent_extended h
    rw [charCount_append] at hextended
    have := charCount_singleton_le 0
    show _ ≤ charCount units + 2 + 1
    omega
  | escaped h => simpa [totalExtent, Lexing.extent] using extent_escaped h
  | textEscape => simp [totalExtent, Lexing.extent]
  | @unit _ units _ n =>
    have hn := charCount_unitsOf_le n
    simp only [totalExtent, Lexing.extent, charCount_append]
    omega

theorem extent_tokensFrom {cs : List Char} (h : tokensFrom chars l cs = some ts) :
    totalExtent ts ≤ l.extent + cs.length := by
  induction cs generalizing l ts with
  | nil =>
    rw [tokensFrom_nil] at h
    rw [extent_finish h]
    exact Nat.zero_le _
  | cons c cs ih =>
    rw [tokensFrom_cons] at h
    obtain ⟨⟨us, l₁⟩, hnext, h⟩ := Option.bind_eq_some_iff.mp h
    obtain ⟨vs, hvs, rfl⟩ := Option.map_eq_some_iff.mp h
    have := extent_next hnext
    have := ih hvs
    rw [totalExtent_append, List.length_cons]
    omega

/-! ### Tokens read off a text -/

theorem next_between_cases (h : next chars .between c = some (ts, l')) :
    (c ∈ marks ∧ ts = [.mark c] ∧ l' = .between) ∨ (c ∈ quotes ∧ ts = [] ∧ l' = .text c []) ∨
      (ts = [] ∧ l'.extent = 0) := by
  by_cases hmark : c ∈ marks
  · cases (next_mark hmark).symm.trans h
    exact .inl ⟨hmark, rfl, rfl⟩
  by_cases hquote : c ∈ quotes
  · cases (next_quote hquote).symm.trans h
    exact .inr (.inl ⟨hquote, rfl, rfl⟩)
  rw [next, start, if_neg hmark, if_neg hquote] at h
  split_ifs at h <;> cases h <;> exact .inr (.inr ⟨rfl, rfl⟩)

theorem next_text_cases {quote : Char} {read : List Nat} (h : next chars (.text quote read) c = some (ts, l')) :
    (c = quote ∧ ts = [.text read] ∧ l' = .between) ∨
      (c ∉ [quote, '\\', '\n', '\r'] ∧ ts = [] ∧ l' = .text quote (read ++ unitsOf c.toNat)) ∨
      (ts = [] ∧ l'.extent = charCount read + 1) := by
  rw [next, extended] at h
  split_ifs at h with hclose hescape hline
  · cases h
    exact .inl ⟨hclose, rfl, rfl⟩
  · cases h
    exact .inr (.inr ⟨rfl, rfl⟩)
  · cases h
    exact .inr (.inl ⟨by simpa [hclose, hescape] using hline, rfl, rfl⟩)

/-- Tokens that are not read off a text as it stands leave some of its characters. -/
theorem verbatim_or_lt (cs : List Char) :
    (∀ ts, tokensFrom chars .between cs = some ts → Verbatim cs ts ∨ totalExtent ts < cs.length) ∧
    ∀ quote ∈ quotes, ∀ read ts, tokensFrom chars (.text quote read) cs = some ts →
      (∃ inside rest us, cs = inside ++ quote :: rest ∧ (∀ c ∈ inside, c ∉ [quote, '\\', '\n', '\r']) ∧
        ts = .text (read ++ units inside) :: us ∧ Verbatim rest us) ∨
      totalExtent ts < charCount read + 1 + cs.length := by
  induction cs with
  | nil =>
    refine ⟨fun ts h => ?_, fun quote _ read ts h => ?_⟩
    · cases h
      exact .inl .nil
    · cases h
  | cons c cs ih =>
    obtain ⟨ihbetween, ihtext⟩ := ih
    refine ⟨fun ts h => ?_, fun quote hquote read ts h => ?_⟩
    · rw [tokensFrom_cons] at h
      obtain ⟨⟨us, l₁⟩, hnext, h⟩ := Option.bind_eq_some_iff.mp h
      obtain ⟨vs, hvs, rfl⟩ := Option.map_eq_some_iff.mp h
      obtain ⟨hmark, rfl, rfl⟩ | ⟨hquote, rfl, rfl⟩ | ⟨rfl, hl⟩ := next_between_cases hnext
      · refine (ihbetween vs hvs).imp (.mark hmark) fun hlt => ?_
        simp only [totalExtent_append, totalExtent, Token.extent, List.length_cons]
        omega
      · obtain ⟨inside, rest, us, rfl, hinside, rfl, hrest⟩ | hlt := ihtext c hquote [] vs hvs
        · exact .inl (.text hquote hinside hrest)
        · have hnone : charCount [] = 0 := rfl
          refine .inr ?_
          rw [List.nil_append, List.length_cons]
          omega
      · have := extent_tokensFrom hvs
        refine .inr ?_
        rw [List.nil_append, List.length_cons]
        omega
    · rw [tokensFrom_cons] at h
      obtain ⟨⟨us, l₁⟩, hnext, h⟩ := Option.bind_eq_some_iff.mp h
      obtain ⟨vs, hvs, rfl⟩ := Option.map_eq_some_iff.mp h
      obtain ⟨rfl, rfl, rfl⟩ | ⟨hc, rfl, rfl⟩ | ⟨rfl, hl⟩ := next_text_cases hnext
      · refine (ihbetween vs hvs).imp (fun hrest => ?_) fun hlt => ?_
        · exact ⟨[], cs, vs, rfl, nofun, by simp [units], hrest⟩
        · simp only [totalExtent_append, totalExtent, Token.extent, List.length_cons]
          omega
      · refine (ihtext quote hquote _ vs hvs).imp ?_ fun hlt => ?_
        · rintro ⟨inside, rest, us, rfl, hinside, rfl, hrest⟩
          refine ⟨c :: inside, rest, us, rfl, List.forall_mem_cons.mpr ⟨hc, hinside⟩, ?_, hrest⟩
          simp [units]
        · have := charCount_unitsOf_le c.toNat
          rw [charCount_append] at hlt
          rw [List.nil_append, List.length_cons]
          omega
      · have := extent_tokensFrom hvs
        refine .inr ?_
        rw [List.nil_append, List.length_cons]
        omega

/-- Tokens that account for all characters of a text are read off it as it stands. -/
theorem verbatim_of_tokens {cs : List Char} (h : tokens chars cs = some ts)
    (hlength : cs.length ≤ totalExtent ts) : Verbatim cs ts :=
  ((verbatim_or_lt cs).1 ts h).resolve_right (Nat.not_lt.mpr hlength)

end ApiRecords.ObjectNotation
