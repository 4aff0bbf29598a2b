import ApiRecords.Proofs.Layout
import ApiRecords.Proofs.Numbers.Notation
import ApiRecords.Proofs.Words

/-!
References written for the ways through a document, and resolved. Each way to a definition, or below one,
has a reference of its own, which leads along it and nowhere else.
-/

namespace ApiRecords

/-! ### Whole numbers read back -/

namespace Text

theorem isDigit_bounds {c : Char} (h : c.isDigit) : 48 ≤ c.toNat ∧ c.toNat ≤ 57 := by
  simpa [Char.isDigit, UInt32.le_iff_toNat_le] using h

theorem digitValue?_of_isDigit {c : Char} (h : c.isDigit) : digitValue? c = some (c.toNat - 48) := by
  have hbounds := isDigit_bounds h
  have hfind : zeroDigits.find? (fun z => z ≤ c.toNat && c.toNat < z + 10) = some 48 := by
    rw [zeroDigits, List.find?_cons_of_pos]
    simp only [Bool.and_eq_true, decide_eq_true_eq]
    omega
  rw [digitValue?, hfind, Option.map_some]

theorem readDigits_of_digits {cs : List Char} (h : ∀ c ∈ cs, c.isDigit) (n : Nat) :
    readDigits n cs = some (Nat.ofDigitChars 10 cs n) := by
  induction cs generalizing n with
  | nil => rfl
  | cons c cs ih =>
    obtain ⟨hc, hcs⟩ := List.forall_mem_cons.mp h
    have hmark : c ≠ '_' := by
      rintro rfl
      cases hc
    rw [readDigits.eq_3 _ _ _ fun d ds heq _ => hmark heq, digitValue?_of_isDigit hc]
    exact ih hcs _

theorem isBlank_of_isDigit {c : Char} (h : c.isDigit) : isBlank c = false := by
  have hbounds := isDigit_bounds h
  simp only [isBlank, Bool.or_eq_false_iff, Bool.and_eq_false_iff, decide_eq_false_iff_not,
    beq_eq_false_iff_ne]
  omega

theorem trimBlanks_of_digits {cs : List Char} (h : ∀ c ∈ cs, c.isDigit) : trimBlanks cs = cs := by
  have hkeep : ∀ ds : List Char, (∀ c ∈ ds, c.isDigit) → ds.dropWhile isBlank = ds := by
    intro ds hds
    cases ds with
    | nil => rfl
    | cons d ds =>
      rw [List.dropWhile_cons_of_neg]
      simp [isBlank_of_isDigit (List.forall_mem_cons.mp hds).1]
  rw [trimBlanks, hkeep cs h, hkeep cs.reverse (by simpa using h), List.reverse_reverse]

theorem readNat_of_digits {c : Char} {cs : List Char} (h : ∀ d ∈ c :: cs, d.isDigit) :
    readNat (c :: cs) = some (Nat.ofDigitChars 10 (c :: cs) 0) := by
  obtain ⟨hc, hcs⟩ := List.forall_mem_cons.mp h
  rw [readNat, digitValue?_of_isDigit hc]
  exact (readDigits_of_digits hcs _).trans (by simp [Nat.ofDigitChars])

theorem readInt_toString (n : Nat) : readInt (toString n) = some (n : Int) := by
  have hdigits := Json.isDigit_toDigits n
  have hvalue : Nat.ofDigitChars 10 (Nat.toDigits 10 n) 0 = n := Nat.ofDigitChars_ten_toDigits
  have htext : (toString n).toList = Nat.toDigits 10 n := by simp
  rw [readInt, htext, trimBlanks_of_digits hdigits]
  cases hcs : Nat.toDigits 10 n with
  | nil => exact absurd hcs Nat.toDigits_ne_nil
  | cons c cs =>
    rw [hcs] at hdigits hvalue
    have hbounds := isDigit_bounds (List.forall_mem_cons.mp hdigits).1
    split
    · rename_i heq
      obtain ⟨rfl, -⟩ := List.cons.inj heq
      exact absurd hbounds.1 (by decide)
    · rename_i heq
      obtain ⟨rfl, -⟩ := List.cons.inj heq
      exact absurd hbounds.1 (by decide)
    · rw [readNat_of_digits hdigits, hvalue]
      rfl

end Text

/-! ### References of ways -/

/-- A character of a key in a reference. -/
def Pointer.escapeChar : Char → List Char
  | '~' => ['~', '0']
  | '/' => ['~', '1']
  | c => [c]

namespace Slot

/-- A slot as it is read off a reference. -/
def text : Slot → String
  | index i => toString i
  | key k => k

/-- A slot as a part of a reference: the key with its slashes and tildes escaped, or the index in decimal
digits. -/
def token : Slot → List Char
  | index i => (toString i).toList
  | key k => k.toList.flatMap Pointer.escapeChar

end Slot

namespace Pointer

/-- The reference of a way from the root. -/
def ofPath (path : List Slot) : String :=
  String.ofList ('#' :: '/' :: ['/'].intercalate (path.map Slot.token))

/-- Where the definitions of the two forms of documents stand. -/
def roots : List (List Slot) := [[.key "components", .key "schemas"], [.key "definitions"]]

/-- Whether a way leads to the definitions of one of the forms, or below them. -/
def Rooted (path : List Slot) : Prop := ∃ root ∈ roots, root <+: path

theorem slash_notMem_escapeChar (c : Char) : '/' ∉ escapeChar c := by
  unfold escapeChar
  split
  · decide
  · decide
  · rename_i hslash
    simpa using Ne.symm hslash

theorem unescape_cons {c : Char} (h : c ≠ '~') (cs : List Char) : unescape (c :: cs) = c :: unescape cs := by
  rw [unescape.eq_3]
  · rintro _ rfl
    exact absurd rfl h
  · rintro _ rfl
    exact absurd rfl h

theorem unescape_escapeChar (c : Char) (cs : List Char) :
    unescape (escapeChar c ++ cs) = c :: unescape cs := by
  unfold escapeChar
  split
  · rfl
  · rfl
  · rename_i htilde _
    exact unescape_cons htilde cs

/-! ### Tokens read back -/

theorem slash_notMem_token (slot : Slot) : '/' ∉ slot.token := by
  cases slot with
  | index i =>
    intro hmem
    have hdigit := Json.isDigit_toDigits i '/' (by simpa [Slot.token] using hmem)
    cases hdigit
  | key k => simpa [Slot.token] using fun c _ => slash_notMem_escapeChar c

theorem unescape_token (slot : Slot) : String.ofList (unescape slot.token) = slot.text := by
  cases slot with
  | index i =>
    have hplain : ∀ cs : List Char, '~' ∉ cs → unescape cs = cs := by
      intro cs hcs
      induction cs with
      | nil => rfl
      | cons c cs ih =>
        obtain ⟨hc, hcs⟩ := not_or.mp (mt List.mem_cons.mpr hcs)
        rw [unescape_cons (Ne.symm hc), ih hcs]
    have htilde : '~' ∉ (toString i).toList := by
      intro hmem
      have hdigit := Json.isDigit_toDigits i '~' (by simpa using hmem)
      cases hdigit
    rw [Slot.token, hplain _ htilde, String.ofList_toList, Slot.text]
  | key k =>
    have hback : ∀ cs : List Char, unescape (cs.flatMap escapeChar) = cs := by
      intro cs
      induction cs with
      | nil => rfl
      | cons c cs ih => rw [List.flatMap_cons, unescape_escapeChar, ih]
    rw [Slot.token, hback, String.ofList_toList, Slot.text]

theorem intercalate_cons_eq (sep : Char) (c : Char) (part : List Char) (parts : List (List Char)) :
    ∃ cs, [sep].intercalate ((c :: part) :: parts) = c :: cs := by
  cases parts with
  | nil => exact ⟨part, by simp⟩
  | cons next parts => exact ⟨_, by rw [List.intercalate_cons_cons, List.cons_append, List.cons_append]⟩

theorem Rooted.head {path : List Slot} (h : Rooted path) : path ≠ [] ∧
    ∃ c cs, ['/'].intercalate (path.map Slot.token) = c :: cs ∧ c ∉ ['#', '/'] := by
  obtain ⟨root, hroot, rest, rfl⟩ := h
  rw [roots, List.mem_cons, List.mem_singleton] at hroot
  rcases hroot with rfl | rfl
  · obtain ⟨cs, hcs⟩ := intercalate_cons_eq '/' 'c' "omponents".toList
      (Slot.token (.key "schemas") :: rest.map Slot.token)
    exact ⟨by simp, 'c', cs, hcs, by decide⟩
  · obtain ⟨cs, hcs⟩ := intercalate_cons_eq '/' 'd' "efinitions".toList (rest.map Slot.token)
    exact ⟨by simp, 'd', cs, hcs, by decide⟩

theorem tokens_ofPath {path : List Slot} (h : Rooted path) : tokens (ofPath path) = path.map Slot.text := by
  obtain ⟨hne, c, cs, hcs, hc⟩ := h.head
  have htrim : Text.trimStart ['#', '/'] (ofPath path) = String.ofList (['/'].intercalate (path.map Slot.token)) := by
    rw [Text.trimStart, ofPath, String.toList_ofList, hcs]
    simp [List.dropWhile, hc]
  have hsplit : Text.splitOnChar '/' (['/'].intercalate (path.map Slot.token)) = path.map Slot.token :=
    Text.splitOnChar_intercalate (by simpa using hne) (by simpa using fun slot _ => slash_notMem_token slot)
  rw [tokens, htrim, Text.parts, String.toList_ofList, hsplit]
  simp [unescape_token]

end Pointer

/-! ### Ways taken by references -/

theorem Slot.text_toString_inj {i j : Nat} (h : toString i = toString j) : i = j := by
  have hread := congrArg Text.readInt h
  rw [Text.readInt_toString, Text.readInt_toString] at hread
  exact Int.ofNat.inj (Option.some.inj hread)

namespace Graph

variable {g : Graph} {v w w' : Value} {slot slot' : Slot}

theorem step_text (h : g.at? v slot = some w) : g.step v slot.text = some w := by
  obtain ⟨n, hn, hat⟩ := Option.bind_eq_some_iff.mp h
  rw [step, hn]
  cases n with
  | array items =>
    cases slot with
    | key k => cases hat
    | index i =>
      have hitem : Pointer.itemAt items (i : Int) = some w := by
        rw [Pointer.itemAt, if_pos (Int.natCast_nonneg i)]
        exact hat
      exact Option.bind_eq_some_iff.mpr ⟨_, Text.readInt_toString i, hitem⟩
  | object members =>
    cases slot with
    | index i => cases hat
    | key k => exact hat

/-- In one container, slots that are read off as one text are one: arrays have indices only, and mappings
keys only. -/
theorem slot_of_text (h : g.at? v slot = some w) (h' : g.at? v slot' = some w')
    (htext : slot.text = slot'.text) : slot = slot' := by
  obtain ⟨n, hn, hat⟩ := Option.bind_eq_some_iff.mp h
  obtain ⟨n', hn', hat'⟩ := Option.bind_eq_some_iff.mp h'
  obtain rfl := Option.some.inj (hn.symm.trans hn')
  cases n with
  | array items =>
    cases slot with
    | key k => cases hat
    | index i =>
      cases slot' with
      | key k => cases hat'
      | index j => exact congrArg Slot.index (Slot.text_toString_inj htext)
  | object members =>
    cases slot with
    | index i => cases hat
    | key k =>
      cases slot' with
      | index j => cases hat'
      | key l => exact congrArg Slot.key htext

variable {path path' : List Slot}

theorem foldlM_step_text (h : path.foldlM g.at? v = some w) :
    (path.map Slot.text).foldlM g.step v = some w := by
  induction path generalizing v with
  | nil => exact h
  | cons slot path ih =>
    rw [List.foldlM_cons] at h
    obtain ⟨u, hu, hrest⟩ := Option.bind_eq_some_iff.mp h
    rw [List.map_cons, List.foldlM_cons]
    exact Option.bind_eq_some_iff.mpr ⟨u, step_text hu, ih hrest⟩

theorem path_of_texts (h : path.foldlM g.at? v = some w) (h' : path'.foldlM g.at? v = some w')
    (htexts : path.map Slot.text = path'.map Slot.text) : path = path' := by
  induction path generalizing v path' with
  | nil => exact (List.map_eq_nil_iff.mp htexts.symm).symm
  | cons slot path ih =>
    obtain ⟨slot', rest, rfl, htext, hrest⟩ := List.map_eq_cons_iff.mp htexts.symm
    rw [List.foldlM_cons] at h h'
    obtain ⟨u, hu, h⟩ := Option.bind_eq_some_iff.mp h
    obtain ⟨u', hu', h'⟩ := Option.bind_eq_some_iff.mp h'
    obtain rfl := slot_of_text hu hu' htext.symm
    obtain rfl := Option.some.inj (hu.symm.trans hu')
    rw [ih h h' hrest.symm]

end Graph

/-- The reference of a way to the definitions of a document, or below them, resolves to the value that the
way leads to. Different ways have different references. The reference of a way that goes on by a key which
a mapping does not have cannot be resolved. -/
theorem resolve_ofPath (doc : Document) :
    (∀ path v, Pointer.Rooted path → doc.find path = some v →
      doc.resolve (Pointer.ofPath path) = .ok v) ∧
    (∀ path path' v v', Pointer.Rooted path → Pointer.Rooted path' → doc.find path = some v →
      doc.find path' = some v' → Pointer.ofPath path = Pointer.ofPath path' → path = path') ∧
    ∀ path key rest v members, Pointer.Rooted (path ++ .key key :: rest) → doc.find path = some v →
      doc.graph.object? v = some members → members.lookup key = none →
        doc.resolve (Pointer.ofPath (path ++ .key key :: rest)) =
          .error (.unresolvable (Pointer.ofPath (path ++ .key key :: rest))) := by
  have hlocal : ∀ path, (Pointer.ofPath path).toList.head? = some '#' := fun path => by
    simp [Pointer.ofPath]
  refine ⟨fun path v hroot hpath => ?_, fun path path' v v' hroot hroot' hpath hpath' heq => ?_,
    fun path key rest v members hroot hpath hmembers hmissing => ?_⟩
  · have hfollow := Graph.foldlM_step_text hpath
    rw [Document.resolve, if_neg (not_not.mpr (hlocal path)), Pointer.tokens_ofPath hroot, hfollow]
  · have htexts := congrArg Pointer.tokens heq
    rw [Pointer.tokens_ofPath hroot, Pointer.tokens_ofPath hroot'] at htexts
    exact Graph.path_of_texts hpath hpath' htexts
  · have hfollow := Graph.foldlM_step_text hpath
    have hstep : doc.graph.step v key = none := by
      rw [Graph.step, Graph.object?_iff.mp hmembers]
      exact hmissing
    rw [Document.resolve, if_neg (not_not.mpr (hlocal _)), Pointer.tokens_ofPath hroot, List.map_append,
      List.foldlM_append, hfollow]
    simp [Slot.text, hstep]

/-- Definitions whose names look like parts of references. -/
def oddNames : Document := .ofTree (.object [("components", .object [("schemas", .object [
  ("a/b~1", .object [("oneOf", .array [.object [], .object [("type", .text "string")]])]),
  ("", .object [("0", .object [])])])])])

theorem resolve_ofPath_oddNames :
    oddNames.resolve "#/components/schemas/a~1b~01/oneOf/1" = .ok (.node 6) ∧
      oddNames.resolve "#/components/schemas/" = .ok (.node 7) ∧
      Pointer.ofPath [.key "components", .key "schemas", .key ""] ≠
        Pointer.ofPath [.key "components", .key "schemas", .key "", .key "0"] ∧
      oddNames.resolve "#/components/schemas/a~1b/oneOf" =
        .error (.unresolvable "#/components/schemas/a~1b/oneOf") := by
  obtain ⟨hresolve, hinj, hmissing⟩ := resolve_ofPath oddNames
  have hroot : ∀ rest, Pointer.Rooted (.key "components" :: .key "schemas" :: rest) := fun rest =>
    ⟨_, List.mem_cons_self, rest, rfl⟩
  have hstring : Pointer.ofPath [.key "components", .key "schemas", .key "a/b~1", .key "oneOf", .index 1] =
    "#/components/schemas/a~1b~01/oneOf/1" := by decide +kernel
  have hempty : Pointer.ofPath [.key "components", .key "schemas", .key ""] = "#/components/schemas/" := by
    decide +kernel
  have hslash : Pointer.ofPath ([.key "components", .key "schemas"] ++ .key "a/b" :: [.key "oneOf"]) =
    "#/components/schemas/a~1b/oneOf" := by decide +kernel
  refine ⟨hstring ▸ hresolve _ _ (hroot _) rfl, hempty ▸ hresolve _ _ (hroot _) rfl, fun heq => ?_, ?_⟩
  · cases hinj _ _ _ _ (hroot [.key ""]) (hroot [.key "", .key "0"]) rfl rfl heq
  · exact hslash ▸ hmissing _ _ _ _ _ (hroot _) rfl rfl (by decide)

end ApiRecords
