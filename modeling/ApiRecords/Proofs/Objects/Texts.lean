import ApiRecords.Proofs.Objects.Parsing
import ApiRecords.Proofs.Objects.Words
import ApiRecords.Text.Quoted

/-!
Texts between single quotes read back. Each character is read as its 16-bit units, whether it has been
escaped or not, and the units are the characters of the text.
-/

namespace ApiRecords.ObjectNotation

variable {chars : NameChars}

/-- The 16-bit units of a text. -/
def units (cs : List Char) : List Nat := cs.flatMap fun c => unitsOf c.toNat

theorem run_quoteChar (read : List Nat) (c : Char) :
    run chars (.text '\'' read) (Text.quoteChar c) = some ([], .text '\'' (read ++ unitsOf c.toNat)) := by
  unfold Text.quoteChar
  split
  · rfl
  · rfl
  · rfl
  · rfl
  · rename_i hbackslash hquote hline hreturn
    rw [run_singleton, next, extended, if_neg hquote, if_neg hbackslash, if_neg (not_or.mpr ⟨hline, hreturn⟩)]

theorem run_quoteChars (read : List Nat) (cs : List Char) :
    run chars (.text '\'' read) (cs.flatMap Text.quoteChar) = some ([], .text '\'' (read ++ units cs)) := by
  induction cs generalizing read with
  | nil => simp [run, units]
  | cons c cs ih =>
    have hrest : run chars (.text '\'' (read ++ unitsOf c.toNat)) (cs.flatMap Text.quoteChar) =
        some ([], .text '\'' (read ++ units (c :: cs))) := by
      rw [ih, List.append_assoc]
      rfl
    rw [List.flatMap_cons]
    exact run_append_eq_some.mpr ⟨[], _, [], run_quoteChar read c, hrest, rfl⟩

/-- A text between quotes is one token. -/
theorem tokens_singleQuoted (s : String) :
    tokens chars (Text.singleQuoted s).toList = some [.text (units s.toList)] := by
  have hopen : next chars .between '\'' = some ([], .text '\'' []) := by
    rw [next, start_eq_ascii (by decide)]
    rfl
  have hclose : run chars (.text '\'' (units s.toList)) ['\''] = some ([.text (units s.toList)], .between) := by
    rw [run_singleton, next, extended, if_pos rfl]
  have hrun : run chars .between (Text.singleQuoted s).toList = some ([.text (units s.toList)], .between) := by
    rw [Text.singleQuoted, String.toList_ofList]
    refine run_cons_eq_some.mpr ⟨[], _, [.text (units s.toList)], hopen, ?_, rfl⟩
    exact run_append_eq_some.mpr ⟨[], _, _, run_quoteChars [] s.toList, hclose, rfl⟩
  rw [tokens, tokensFrom, hrun]
  rfl

theorem decode_cons {u : Nat} (h : u.isValidChar) (us : List Nat) :
    decode (u :: us) = (decode us).map (Char.ofNat u :: ·) := by
  rw [decode.eq_def (u :: us)]
  exact if_pos h

theorem decode_unitsOf (c : Char) (us : List Nat) :
    decode (unitsOf c.toNat ++ us) = (decode us).map (c :: ·) := by
  have hlt := toNat_lt c
  have hvalid : c.toNat.isValidChar := c.valid
  unfold unitsOf
  split
  · rw [List.singleton_append, decode_cons hvalid, Char.ofNat_toNat]
  · rename_i hlarge
    have hhalf : ¬ (0xd800 + (c.toNat - 0x10000) / 0x400).isValidChar := by
      simp only [Nat.isValidChar]
      omega
    have hcode : 0x10000 + (0xd800 + (c.toNat - 0x10000) / 0x400 - 0xd800) * 0x400 +
        (0xdc00 + (c.toNat - 0x10000) % 0x400 - 0xdc00) = c.toNat := by omega
    rw [List.cons_append, List.singleton_append, decode, if_neg hhalf, if_pos (by omega), hcode,
      Char.ofNat_toNat]

/-- The units of a text are read as its characters. -/
theorem decode_units (cs : List Char) : decode (units cs) = some cs := by
  induction cs with
  | nil => simp [units, decode]
  | cons c cs ih =>
    have hcons : units (c :: cs) = unitsOf c.toNat ++ units cs := List.flatMap_cons
    rw [hcons, decode_unitsOf, ih, Option.map_some]

end ApiRecords.ObjectNotation
