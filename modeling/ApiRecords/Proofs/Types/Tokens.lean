import Mathlib.Data.List.Basic

/-!
The tokens of type expressions: words, literals between quotes, and marks. Blanks between them mean
nothing. A text is cut into tokens by one pass over its characters.
-/

namespace ApiRecords

inductive Token where
  | word (s : String)
  /-- A literal with its quotes, as it is written. -/
  | literal (s : String)
  | mark (c : Char)
  deriving DecidableEq

/-- What a text is in the middle of: nothing, a word, or a literal with the given quote, perhaps right
after a backslash; with the characters read of it. -/
inductive Lexing where
  | between
  | word (read : List Char)
  | literal (quote : Char) (read : List Char)
  | escaped (quote : Char) (read : List Char)

namespace Token

def marks : List Char := ['|', '[', ']', '(', ')', '\x7b', '\x7d', ',', ':']

def quotes : List Char := ['\'', '"']

def blanks : List Char := [' ', '\n', '\r', '\t']

/-- Whether a character stands in words: every one that has no other use does. -/
def isPlain (c : Char) : Bool := c ∉ marks ∧ c ∉ quotes ∧ c ∉ blanks

/-- A character after a token, or after a blank. -/
def start (c : Char) : List Token × Lexing :=
  if c ∈ marks then ([mark c], .between)
  else if c ∈ quotes then ([], .literal c [])
  else if c ∈ blanks then ([], .between)
  else ([], .word [c])

def next : Lexing → Char → List Token × Lexing
  | .between, c => start c
  | .word cs, c =>
    if isPlain c then ([], .word (cs ++ [c]))
    else (word (String.ofList cs) :: (start c).1, (start c).2)
  | .literal quote cs, c =>
    if c = quote then ([literal (String.ofList (quote :: cs ++ [quote]))], .between)
    else if c = '\\' then ([], .escaped quote cs)
    else ([], .literal quote (cs ++ [c]))
  | .escaped quote cs, c => ([], .literal quote (cs ++ ['\\', c]))

/-- What the end of the text leaves. A literal without an end leaves its quote. -/
def finish : Lexing → List Token
  | .between => []
  | .word cs => [word (String.ofList cs)]
  | .literal quote _ | .escaped quote _ => [mark quote]

def readFrom : Lexing → List Char → List Token
  | r, [] => finish r
  | r, c :: cs => (next r c).1 ++ readFrom (next r c).2 cs

def read (s : String) : List Token := readFrom .between s.toList

/-- What no word goes on with: nothing at all, or a character that stands in none. -/
def Outside (cs : List Char) : Prop := ∀ c ∈ cs.head?, isPlain c = false

end Token

open Token

/-- The text is read as the tokens wherever no word goes on after it. -/
def Spells (s : String) (ts : List Token) : Prop :=
  ∀ rest, Outside rest → readFrom .between (s.toList ++ rest) = ts ++ readFrom .between rest

/-- The text is read as the tokens whatever comes after it. -/
def Opens (s : String) (ts : List Token) : Prop :=
  ∀ rest, readFrom .between (s.toList ++ rest) = ts ++ readFrom .between rest

/-- The text ends a word before it as well. -/
structure Cuts (s : String) (ts : List Token) : Prop where
  opens : Opens s ts
  outside : ∀ rest, Outside (s.toList ++ rest)

theorem Opens.spells {s : String} {ts : List Token} (h : Opens s ts) : Spells s ts :=
  fun rest _ => h rest

theorem Opens.cuts {s : String} {ts : List Token} (h : Opens s ts)
    (hfirst : s.toList.head?.map isPlain = some false) : Cuts s ts where
  opens := h
  outside rest c hc := by
    cases hs : s.toList with
    | nil => simp [hs] at hfirst
    | cons first cs =>
      rw [hs] at hc hfirst
      obtain rfl : first = c := by simpa using hc
      simpa using hfirst

namespace Spells

variable {s s' : String} {ts ts' : List Token}

theorem nil : Spells "" [] := fun _ _ => rfl

theorem between {before after : String} {us us' : List Token} (hbefore : Opens before us)
    (h : Spells s ts) (hafter : Cuts after us') :
    Spells (before ++ s ++ after) (us ++ ts ++ us') := fun rest _ => by
  simp only [String.toList_append, List.append_assoc]
  rw [hbefore, h _ (hafter.outside rest), hafter.opens]

theorem append_of_cuts {sep : String} {us : List Token} (h : Spells s ts) (hsep : Cuts sep us)
    (h' : Spells s' ts') : Spells (s ++ sep ++ s') (ts ++ us ++ ts') := fun rest hrest => by
  simp only [String.toList_append, List.append_assoc]
  rw [h _ (hsep.outside _), hsep.opens, h' rest hrest]

theorem before (h : Spells s ts) (h' : Cuts s' ts') : Spells (s ++ s') (ts ++ ts') := by
  simpa using append_of_cuts h h' nil

/-- Texts joined by one that cuts. -/
theorem intercalate {sep : String} {us : List Token} (hsep : Cuts sep us) {texts : List String}
    {tss : List (List Token)} (h : List.Forall₂ Spells texts tss) :
    Spells (sep.intercalate texts) (us.intercalate tss) := by
  induction h with
  | nil => exact nil
  | cons hs htexts ih =>
    cases htexts with
    | nil => simpa using hs
    | cons => simpa [List.intercalate_cons_cons] using append_of_cuts hs hsep ih

theorem read_eq (h : Spells s ts) : Token.read s = ts := by
  have hread := h [] nofun
  rwa [List.append_nil, readFrom, finish, List.append_nil] at hread

end Spells

/-! ### Words -/

namespace Token

/-- Whether a text is one word. -/
def IsWord (s : String) : Prop := s ≠ "" ∧ s.toList.all isPlain

instance (s : String) : Decidable (IsWord s) := inferInstanceAs (Decidable (_ ∧ _))

theorem IsWord.append {s s' : String} (h : IsWord s) (h' : s'.toList.all isPlain) :
    IsWord (s ++ s') := by
  refine ⟨fun hs => h.1 ?_, ?_⟩
  · exact (by simpa using congrArg String.toList hs : s = "" ∧ s' = "").1
  · rw [String.toList_append, List.all_append, h.2, h']
    rfl

theorem start_of_isPlain {c : Char} (h : isPlain c) : start c = ([], .word [c]) := by
  simp only [isPlain, decide_eq_true_eq] at h
  simp [start, h]

theorem readFrom_word {cs : List Char} (h : ∀ c ∈ cs, isPlain c) (read rest : List Char) :
    readFrom (.word read) (cs ++ rest) = readFrom (.word (read ++ cs)) rest := by
  induction cs generalizing read with
  | nil => simp
  | cons c cs ih =>
    simp only [List.mem_cons, forall_eq_or_imp] at h
    simp [readFrom, next, h.1, ih h.2]

theorem readFrom_word_of_outside (read : List Char) {rest : List Char} (h : Outside rest) :
    readFrom (.word read) rest = word (String.ofList read) :: readFrom .between rest := by
  cases rest with
  | nil => rfl
  | cons c rest =>
    have hc : isPlain c = false := h c rfl
    simp [readFrom, next, hc]

theorem IsWord.spells {s : String} (h : IsWord s) : Spells s [word s] := by
  obtain ⟨hne, hplain⟩ := h
  rw [List.all_eq_true] at hplain
  intro rest hrest
  cases hs : s.toList with
  | nil => exact absurd (by simpa using hs) hne
  | cons c cs =>
    simp only [hs, List.mem_cons, forall_eq_or_imp] at hplain
    have hcs : String.ofList (c :: cs) = s := by rw [← hs, String.ofList_toList]
    rw [List.cons_append, readFrom, next, start_of_isPlain hplain.1, readFrom_word hplain.2,
      readFrom_word_of_outside _ hrest]
    simp [hcs]

/-! ### Literals -/

/-- Characters that stay inside a literal with the given quote. -/
def Inside (quote : Char) (cs : List Char) : Prop :=
  ∀ read rest, readFrom (.literal quote read) (cs ++ rest) = readFrom (.literal quote (read ++ cs)) rest

namespace Inside

variable {quote : Char}

theorem nil : Inside quote [] := fun read rest => by simp

theorem append {cs cs' : List Char} (h : Inside quote cs) (h' : Inside quote cs') :
    Inside quote (cs ++ cs') := fun read rest => by
  rw [List.append_assoc, h, h', List.append_assoc]

theorem char {c : Char} (hquote : c ≠ quote) (hescape : c ≠ '\\') : Inside quote [c] :=
  fun read rest => by simp [readFrom, next, hquote, hescape]

theorem escape (hquote : quote ≠ '\\') (c : Char) : Inside quote ['\\', c] :=
  fun read rest => by simp [readFrom, next, hquote.symm]

theorem flatMap {f : Char → List Char} (h : ∀ c, Inside quote (f c)) (cs : List Char) :
    Inside quote (cs.flatMap f) := by
  induction cs with
  | nil => exact nil
  | cons c cs ih => simpa using (h c).append ih

theorem ofForall {cs : List Char} (h : ∀ c ∈ cs, c ≠ quote ∧ c ≠ '\\') : Inside quote cs := by
  induction cs with
  | nil => exact nil
  | cons c cs ih =>
    simp only [List.mem_cons, forall_eq_or_imp] at h
    exact (char h.1.1 h.1.2).append (ih h.2)

/-- A body between quotes is one literal. -/
theorem opens {cs : List Char} (h : Inside quote cs) (hquote : quote ∈ quotes) :
    Opens (String.ofList (quote :: cs ++ [quote]))
      [literal (String.ofList (quote :: cs ++ [quote]))] := fun rest => by
  have hmarks : quote ∉ marks := by
    intro hmem
    simp only [quotes, List.mem_cons, List.not_mem_nil, or_false] at hquote
    rcases hquote with rfl | rfl <;> revert hmem <;> decide
  rw [String.toList_ofList, List.cons_append, List.cons_append, List.append_assoc, readFrom]
  simp only [next, start, hmarks, hquote, if_true, if_false, List.nil_append]
  rw [h, List.cons_append, readFrom]
  simp [next]

end Inside

end Token

end ApiRecords
