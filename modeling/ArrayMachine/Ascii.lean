/-!
# ASCII bytes

Text that streams carry is a list of bytes. Here are the bytes that the written forms of values use,
and the blanks that part one token from the next.
-/

namespace ArrayMachine.Ascii

/-- The bytes of ASCII characters. -/
def bytes (text : List Char) : List UInt8 := text.map Char.toUInt8

def space : UInt8 := 32
def plus : UInt8 := 43
def minus : UInt8 := 45
def point : UInt8 := 46
def zero : UInt8 := 48
def lowerE : UInt8 := 101
def upperE : UInt8 := 69
def upperF : UInt8 := 70
def upperT : UInt8 := 84
def openBracket : UInt8 := 91
def closeBracket : UInt8 := 93

/-- Blank, tab, line feed, form feed and carriage return part tokens; a vertical tab does not. -/
def isBlank (byte : UInt8) : Bool :=
  byte = 32 || byte = 9 || byte = 10 || byte = 12 || byte = 13

/-- A digit is not a blank. -/
theorem isBlank_of_digit {byte : UInt8} (h : 48 ≤ byte) : isBlank byte = false := by
  simp only [isBlank, Bool.or_eq_false_iff, decide_eq_false_iff_not]
  refine ⟨⟨⟨⟨?_, ?_⟩, ?_⟩, ?_⟩, ?_⟩ <;> (rintro rfl; revert h; decide)

end ArrayMachine.Ascii
