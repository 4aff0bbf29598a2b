import ApiRecords.Document.Json.Writer
import ApiRecords.Proofs.Types.Expressions
import ApiRecords.Text.Quoted

/-!
Values as static types: a number or a truth value is written as a word, a text as a literal, and an
array or an object as a type in brackets.
-/

namespace ApiRecords

open Token

/-! ### Numbers -/

namespace Token

theorem isPlain_of_isDigit {c : Char} (h : c.isDigit) : isPlain c := by
  have hnone : (marks ++ quotes ++ blanks).all (! Char.isDigit ·) := by decide
  have hother : c ∉ marks ++ quotes ++ blanks := fun hmem => by
    simpa [h] using List.all_eq_true.mp hnone c hmem
  simpa [isPlain, and_assoc] using hother

end Token

theorem significantDigits_isDigit (n : Nat) : ∀ c ∈ significantDigits n, c.isDigit := fun c hc => by
  have hmem := (List.dropWhile_sublist _).mem (List.mem_reverse.mp hc)
  exact Nat.isDigit_of_mem_toDigits (by decide) (by decide) (List.mem_reverse.mp hmem)

namespace NumberLayout

section

variable {P : Char → Prop} (hdigit : ∀ c, c.isDigit → P c) (hmarks : ∀ c ∈ ['.', 'e', '+', '-'], P c)
  {digits : List Char} (h : ∀ c ∈ digits, c.isDigit) (leading : Int)

include hdigit hmarks h

theorem forall_mem_positional : ∀ c ∈ positional digits leading, P c := by
  intro c hc
  have hzero : P '0' := hdigit _ rfl
  have hpoint : P '.' := hmarks _ (by decide)
  unfold positional at hc
  split at hc
  · simp only [List.mem_append, List.mem_cons, List.mem_replicate] at hc
    rcases hc with (hc | ⟨-, rfl⟩) | rfl | hc
    · exact hdigit c (h c (List.mem_of_mem_take hc))
    · exact hzero
    · exact hpoint
    · split at hc
      · exact List.mem_singleton.mp hc ▸ hzero
      · exact hdigit c (h c (List.mem_of_mem_drop hc))
  · simp only [List.cons_append, List.mem_append, List.mem_cons, List.mem_replicate] at hc
    rcases hc with rfl | rfl | ⟨-, rfl⟩ | hc
    · exact hzero
    · exact hpoint
    · exact hzero
    · exact hdigit c (h c hc)

theorem forall_mem_scientific (layout : NumberLayout) : ∀ c ∈ layout.scientific digits leading, P c := by
  intro c hc
  unfold scientific at hc
  simp only [List.mem_append, List.mem_cons, List.mem_replicate] at hc
  rcases hc with ((hc | hc) | rfl | rfl | ⟨-, rfl⟩) | hc
  · exact hdigit c (h c (List.mem_of_mem_take hc))
  · split at hc
    · cases hc
    · rcases List.mem_cons.mp hc with rfl | hc
      · exact hmarks _ (by decide)
      · exact hdigit c (h c (List.mem_of_mem_drop hc))
  · exact hmarks _ (by decide)
  · split <;> exact hmarks _ (by decide)
  · exact hdigit _ rfl
  · exact hdigit c (Nat.isDigit_of_mem_toDigits (by decide) (by decide) hc)

end

/-- The characters of a written number. -/
theorem forall_mem_write {P : Char → Prop} (hdigit : ∀ c, c.isDigit → P c)
    (hmarks : ∀ c ∈ ['.', 'e', '+', '-'], P c) {layout : NumberLayout}
    (hinfinity : ∀ c ∈ layout.infinity.toList, P c) (hnan : ∀ c ∈ layout.nan.toList, P c) (x : Double) :
    ∀ c ∈ (layout.write x).toList, P c := by
  have hsigned (neg : Bool) {s : String} (h : ∀ c ∈ s.toList, P c) :
      ∀ c ∈ ((if neg then "-" else "") ++ s).toList, P c := by
    cases neg with
    | false => simpa using h
    | true => simpa using ⟨hmarks '-' (by decide), h⟩
  cases x with
  | nan => exact hnan
  | infinite neg => exact hsigned neg hinfinity
  | finite neg m e =>
    refine hsigned neg ?_
    rw [String.toList_ofList]
    split
    · have hzero : P '0' := hdigit _ rfl
      have hpoint : P '.' := hmarks _ (by decide)
      simp [hzero, hpoint]
    · dsimp only
      split
      · exact forall_mem_positional hdigit hmarks (significantDigits_isDigit _) _
      · exact forall_mem_scientific hdigit hmarks (significantDigits_isDigit _) _ layout

theorem write_ne_empty {layout : NumberLayout} (hinfinity : layout.infinity ≠ "") (hnan : layout.nan ≠ "")
    (x : Double) : layout.write x ≠ "" := by
  have hsigned (neg : Bool) {s : String} (h : s ≠ "") : (if neg then "-" else "") ++ s ≠ "" := by
    simp [h]
  cases x with
  | nan => exact hnan
  | infinite neg => exact hsigned neg hinfinity
  | finite neg m e =>
    refine hsigned neg ?_
    split
    · simp
    · dsimp only [positional, scientific]
      split_ifs <;> simp

theorem isWord_write {layout : NumberLayout} (hinfinity : IsWord layout.infinity)
    (hnan : IsWord layout.nan) (x : Double) : IsWord (layout.write x) := by
  refine ⟨write_ne_empty hinfinity.1 hnan.1 x, List.all_eq_true.mpr ?_⟩
  exact forall_mem_write (fun _ => isPlain_of_isDigit) (List.all_eq_true.mp rfl) (List.all_eq_true.mp hinfinity.2)
    (List.all_eq_true.mp hnan.2) x

end NumberLayout

/-- A whole number is written in digits, perhaps after a sign. -/
theorem toList_toString (n : Int) : ∃ sign ∈ [[], ['-']], ∃ m, (toString n).toList = sign ++ Nat.toDigits 10 m := by
  have hnat (m : Nat) : (toString m).toList = Nat.toDigits 10 m := Nat.toList_repr
  cases n with
  | ofNat m => exact ⟨[], by decide, m, hnat m⟩
  | negSucc m =>
    have hsigned : (toString (Int.negSucc m)).toList = '-' :: (toString (m + 1)).toList :=
      String.toList_append
    exact ⟨['-'], by decide, m + 1, by rw [hsigned, hnat]; rfl⟩

/-- The characters of a written whole number. -/
theorem forall_mem_toString {P : Char → Prop} (hdigit : ∀ c, c.isDigit → P c) (hminus : P '-') (n : Int) :
    ∀ c ∈ (toString n).toList, P c := by
  obtain ⟨sign, hsign, m, hchars⟩ := toList_toString n
  rw [hchars]
  refine List.forall_mem_append.mpr ⟨fun c hc => ?_, fun c hc => ?_⟩
  · obtain rfl | rfl : sign = [] ∨ sign = ['-'] := by simpa using hsign
    · cases hc
    · exact List.mem_singleton.mp hc ▸ hminus
  · exact hdigit c (Nat.isDigit_of_mem_toDigits (by decide) (by decide) hc)

theorem isWord_toString (n : Int) : IsWord (toString n) := by
  refine ⟨fun h => ?_, List.all_eq_true.mpr ?_⟩
  · obtain ⟨sign, -, m, hchars⟩ := toList_toString n
    rw [h] at hchars
    exact List.append_ne_nil_of_right_ne_nil sign Nat.toDigits_ne_nil hchars.symm
  · exact forall_mem_toString (fun _ => isPlain_of_isDigit) (by decide) n

/-! ### Texts -/

theorem hex_inside (width n : Nat) : Inside '"' (Text.hex width n) := by
  refine Inside.ofForall fun c hc => ?_
  induction width generalizing n with
  | zero => cases hc
  | succ width ih =>
    rw [Text.hex, List.mem_append, List.mem_singleton] at hc
    rcases hc with hc | rfl
    · exact ih _ hc
    · have hdigits : ∀ d < 16, Text.hexDigit d ≠ '"' ∧ Text.hexDigit d ≠ '\\' := by decide
      exact hdigits _ (Nat.mod_lt _ (by decide))

theorem unicodeEscape_inside (c : Char) : Inside '"' (Json.unicodeEscape c) := by
  have hescape : ∀ n, Inside '"' ('\\' :: 'u' :: Text.hex 4 n) := fun n =>
    (Inside.escape (by decide) 'u').append (hex_inside 4 n)
  unfold Json.unicodeEscape
  dsimp only
  split
  · exact hescape _
  · exact (hescape _).append (hescape _)

theorem escapeChar_inside (asciiOnly : Bool) (c : Char) :
    Inside '"' (Json.escapeChar asciiOnly c) := by
  have hescape : ∀ d, Inside '"' ['\\', d] := Inside.escape (by decide)
  unfold Json.escapeChar
  split_ifs with hquote
  · exact hescape c
  · exact hescape 'n'
  · exact hescape 'r'
  · exact hescape 't'
  · exact hescape 'b'
  · exact hescape 'f'
  · exact unicodeEscape_inside c
  · rw [not_or] at hquote
    exact Inside.char hquote.1 hquote.2

theorem writeText_spells (asciiOnly : Bool) (s : String) :
    Spells (Json.writeText asciiOnly s) [.literal (Json.writeText asciiOnly s)] :=
  ((Inside.flatMap (escapeChar_inside asciiOnly) s.toList).opens (by decide)).spells

theorem quoteChar_inside (c : Char) : Inside '\'' (Text.quoteChar c) := by
  unfold Text.quoteChar
  split
  · exact Inside.escape (by decide) '\\'
  · exact Inside.escape (by decide) '\''
  · exact Inside.escape (by decide) 'n'
  · exact Inside.escape (by decide) 'r'
  · exact Inside.char ‹_› ‹_›

theorem singleQuoted_spells (s : String) :
    Spells (Text.singleQuoted s) [.literal (Text.singleQuoted s)] :=
  ((Inside.flatMap quoteChar_inside s.toList).opens (by decide)).spells

/-! ### Values -/

theorem enclose_spaced (depth : Nat) (opening closing : String) (parts : List String) :
    Json.enclose .spaced depth opening closing parts =
      opening ++ ", ".intercalate parts ++ closing := by
  cases parts with
  | nil => simp [Json.enclose]
  | cons => rfl

namespace Tree

open TypeTree

theorem staticUnit_scalar (s : Scalar) : ∃ t, StaticUnit (Json.writeScalar true s) t := by
  cases s with
  | null => exact ⟨_, .word (by decide)⟩
  | bool b => cases b <;> exact ⟨_, .word (by decide)⟩
  | int n => exact ⟨_, .word (isWord_toString n)⟩
  | double x =>
    exact ⟨_, .word (NumberLayout.isWord_write (by decide) (by decide) x)⟩
  | text s => exact ⟨_, .quoted (writeText_spells true s)⟩

theorem staticUnit_back (depth levels : Nat) :
    ∃ u, StaticUnit ((back levels).jsonAt .spaced depth) u := by
  have hkey : Spells "\"$cycle\"" [.literal "\"$cycle\""] := fun _ _ => rfl
  have htypes : MembersRel Static [("\"$cycle\"", toString levels)]
      [("\"$cycle\"", name (toString levels))] :=
    .cons ⟨rfl, (StaticUnit.word (isWord_toString levels)).static⟩ .nil
  have hopen : Opens "\x7b" [.mark '\x7b'] := fun _ => rfl
  have hclose : Cuts "\x7d" [.mark '\x7d'] := Opens.cuts (fun _ => rfl) rfl
  have hrecord := Static.record hopen hclose htypes (by simpa using .inr hkey)
  rw [jsonAt, enclose_spaced]
  exact ⟨_, hrecord⟩

mutual

theorem staticUnit_json (depth : Nat) : (t : Tree) → ∃ u, StaticUnit (t.jsonAt .spaced depth) u
  | scalar s => staticUnit_scalar s
  | array items => by
    obtain ⟨us, hus⟩ := static_jsonItems (depth + 1) items
    rw [jsonAt, enclose_spaced]
    exact ⟨_, Static.tuple hus⟩
  | object members => by
    obtain ⟨fields, types, hparts, htypes, hkeys⟩ := static_jsonMembers (depth + 1) members
    rw [jsonAt, enclose_spaced, hparts]
    exact ⟨_, Static.record (fun _ => rfl) (Opens.cuts (fun _ => rfl) rfl) htypes hkeys⟩
  | back levels => staticUnit_back depth levels

theorem static_jsonItems (depth : Nat) : (items : List Tree) →
    ∃ us, List.Forall₂ Static (jsonItems .spaced depth items) us
  | [] => ⟨[], .nil⟩
  | t :: ts => by
    obtain ⟨u, hu⟩ := staticUnit_json depth t
    obtain ⟨us, hus⟩ := static_jsonItems depth ts
    exact ⟨u :: us, .cons hu.static hus⟩

theorem static_jsonMembers (depth : Nat) : (members : List (String × Tree)) →
    ∃ (fields : List (String × String)) (types : List (String × TypeTree)),
      jsonMembers .spaced depth members = (fields.map fun (key, value) => key ++ ": " ++ value) ∧
        MembersRel Static fields types ∧ ∀ field ∈ fields, IsKey field.1
  | [] => ⟨[], [], rfl, .nil, nofun⟩
  | (key, t) :: ts => by
    obtain ⟨u, hu⟩ := staticUnit_json depth t
    obtain ⟨fields, types, hparts, htypes, hkeys⟩ := static_jsonMembers depth ts
    refine ⟨(Json.writeText true key, t.jsonAt .spaced depth) :: fields,
      (Json.writeText true key, u) :: types, ?_, .cons ⟨rfl, hu.static⟩ htypes, ?_⟩
    · rw [jsonMembers, hparts]
      rfl
    · rw [List.forall_mem_cons]
      exact ⟨.inr (writeText_spells true key), hkeys⟩

end

end Tree

end ApiRecords
