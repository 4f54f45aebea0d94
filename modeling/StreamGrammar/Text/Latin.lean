/-!
# Bytes as Latin-1 text

Matched input is handed over as text in which byte `n` is the character U+00nn, so no input is too
ill-formed to be captured and the bytes can be read back from the text.
-/

namespace StreamGrammar.Text

/-- The character with the number of a byte. -/
def latinChar (b : UInt8) : Char := Char.ofNat b.toNat

/-- The text whose characters have the numbers of the bytes. -/
def latin (bytes : List UInt8) : String := String.ofList (bytes.map latinChar)

/-- The bytes of a text whose characters are all below U+0100. -/
def latinBytes (text : String) : List UInt8 := text.toList.map fun c => c.toNat.toUInt8

/-- A byte can be read back from its character. -/
theorem toUInt8_latinChar (b : UInt8) : (latinChar b).toNat.toUInt8 = b := by
  have hb : b.toNat < 256 := b.toNat_lt
  have hvalid : b.toNat.isValidChar := Or.inl (by omega)
  have hchar : (latinChar b).toNat = b.toNat := by
    unfold latinChar Char.ofNat
    rw [dif_pos hvalid]
    rfl
  rw [hchar]
  exact UInt8.ofNat_toNat

/-- Bytes can be read back from their text. -/
theorem latinBytes_latin (bytes : List UInt8) : latinBytes (latin bytes) = bytes := by
  simp [latinBytes, latin, Function.comp_def, toUInt8_latinChar]

end StreamGrammar.Text
