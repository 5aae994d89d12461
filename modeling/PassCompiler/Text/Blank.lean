import PassCompiler.Text.Bytes

/-! Unicode white space, as the byte texts of its characters. Main definition: `trim`. In a valid
text such a byte text is a whole character wherever it stands, so it may be looked for from either
end. -/
namespace PassCompiler.Blank

/-- The encoded characters of the property White_Space. -/
def encoded : List Bytes :=
  [[0x09], [0x0A], [0x0B], [0x0C], [0x0D], [0x20],
   [0xC2, 0x85], [0xC2, 0xA0],
   [0xE1, 0x9A, 0x80],
   [0xE2, 0x80, 0x80], [0xE2, 0x80, 0x81], [0xE2, 0x80, 0x82], [0xE2, 0x80, 0x83],
   [0xE2, 0x80, 0x84], [0xE2, 0x80, 0x85], [0xE2, 0x80, 0x86], [0xE2, 0x80, 0x87],
   [0xE2, 0x80, 0x88], [0xE2, 0x80, 0x89], [0xE2, 0x80, 0x8A],
   [0xE2, 0x80, 0xA8], [0xE2, 0x80, 0xA9], [0xE2, 0x80, 0xAF],
   [0xE2, 0x81, 0x9F],
   [0xE3, 0x80, 0x80]]

/-- The length of the first of `patterns` that `text` begins with, zero if there is none. -/
def leading (patterns : List Bytes) (text : Bytes) : Nat :=
  match patterns.find? (·.isPrefixOf text) with
  | some p => p.length
  | none => 0

def dropLeading (patterns : List Bytes) (text : Bytes) : Bytes :=
  if _h : 0 < leading patterns text ∧ 0 < text.length then
    dropLeading patterns (text.drop (leading patterns text))
  else text
termination_by text.length
decreasing_by simp only [List.length_drop]; omega

def trimStart (text : Bytes) : Bytes := dropLeading encoded text

def trimEnd (text : Bytes) : Bytes :=
  (dropLeading (encoded.map List.reverse) text.reverse).reverse

def trim (text : Bytes) : Bytes := trimEnd (trimStart text)

end PassCompiler.Blank
