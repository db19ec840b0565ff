-- SUMMARY: Compile errors, instruction limits and estimates, and the character-class parser.
import Ebpfkit.Rust

/-!
# Validation before code generation

`src/compiler/verify.rs`: the errors a compile function returns, the gate on the
number of instructions with the estimates that feed it, and the parser that
turns the text between the brackets of a character class into byte ranges.
-/

namespace Ebpfkit

inductive CompileError where
  | patternTooLong (len max : Nat)
  | invalidPattern (reason : String)
  deriving DecidableEq, Repr

def MAX_BPF_PATTERN_LEN : Nat := 1024
def MAX_BPF_INSTRUCTION_LEN : Nat := 4096

/-- The error for a pattern that is not in the supported subset. -/
def invalidPattern {α : Type} (reason : String) : Outcome CompileError α :=
  .err (.invalidPattern reason)

/-- What a piece of class text stands for: one byte, or an inclusive range. -/
inductive PatternRange where
  | single (v : UInt8)
  | span (lo hi : UInt8)
  deriving DecidableEq, Repr

/-- An inclusive range of bytes. -/
structure CharRange where
  lo : UInt8
  hi : UInt8
  deriving DecidableEq, Repr

/-! ## Instruction limits -/

def compileWithLimit (expectedInstructionCount : Nat) : Outcome CompileError Unit :=
  if expectedInstructionCount > MAX_BPF_INSTRUCTION_LEN then
    .err (.patternTooLong expectedInstructionCount MAX_BPF_INSTRUCTION_LEN)
  else
    .ok ()

def literalSearchInstructionCount (u : Usize) (patternLen : Nat) : Nat :=
  if patternLen = 0 then 4 else u.wrap (14 + u.wrap (patternLen * 2))

/-- The estimate sums `4 + 2 * len` over the alternatives, in `usize` throughout. -/
def estimateAlternationInstructions (u : Usize) (alternatives : List (List UInt8)) : Nat :=
  if alternatives.isEmpty || alternatives.any List.isEmpty then
    2
  else
    let alternativeCount := alternatives.map fun alt =>
      if alt.isEmpty then 0 else u.wrap (4 + u.wrap (alt.length * 2))
    u.wrap (4 + alternativeCount.foldl (fun acc n => u.wrap (acc + n)) 0)

def estimateCharacterClassInstructions (u : Usize) (ranges : List PatternRange) : Nat :=
  if ranges.isEmpty then 2 else u.wrap (4 + u.wrap (ranges.length * 2))

/-! ## Character-class text -/

def PatternRange.toCharRange : PatternRange → CharRange
  | .single v => ⟨v, v⟩
  | .span lo hi => ⟨lo, hi⟩

/-- A token of class text: a literal byte, an unescaped hyphen that may act as a
    range operator, or a class escape with the ranges it expands to. -/
inductive Token where
  | byte (b : UInt8)
  | dash
  | classEscape (ranges : List PatternRange)
  deriving DecidableEq, Repr

/-- The byte of an ASCII character, as in the literal `b'x'`. -/
def ascii (c : Char) : UInt8 := c.toUInt8

/-- Decode the escape whose backslash is followed by `escaped`, if by anything.
    The source also returns the number of bytes consumed, which is always two. -/
def decodeCharacterClassEscape : Option UInt8 → Outcome CompileError Token
  | none => invalidPattern "unterminated character-class escape"
  | some escaped =>
    if escaped = ascii 'n' then .ok (.byte (ascii '\n'))
    else if escaped = ascii 'r' then .ok (.byte (ascii '\r'))
    else if escaped = ascii 't' then .ok (.byte (ascii '\t'))
    else if escaped = ascii '\\' then .ok (.byte (ascii '\\'))
    else if escaped = ascii ']' then .ok (.byte (ascii ']'))
    else if escaped = ascii '[' then .ok (.byte (ascii '['))
    else if escaped = ascii '-' then .ok (.byte (ascii '-'))
    else if escaped = ascii '.' then .ok (.byte (ascii '.'))
    else if escaped = ascii 'd' then
      .ok (.classEscape [.span (ascii '0') (ascii '9')])
    else if escaped = ascii 's' then
      .ok (.classEscape [.span (ascii '\t') (ascii '\r'), .single (ascii ' ')])
    else if escaped = ascii 'w' then
      .ok (.classEscape [.span (ascii 'a') (ascii 'z'), .span (ascii 'A') (ascii 'Z'),
        .span (ascii '0') (ascii '9'), .single (ascii '_')])
    else if escaped = ascii 'D' ∨ escaped = ascii 'S' ∨ escaped = ascii 'W' then
      invalidPattern "negated character-class escapes are not supported"
    else
      invalidPattern "unknown character-class escape sequence"

/-- The scanning loop of `parse_character_class`, from the bytes still to read. -/
def scanTokens : List UInt8 → Outcome CompileError (List Token)
  | [] => .ok []
  | b :: rest =>
    if b = ascii '\\' then
      (decodeCharacterClassEscape rest.head?).andThen fun token =>
        match rest with
        | [] => .ok [token]
        | _ :: rest' => (scanTokens rest').andThen fun tokens => .ok (token :: tokens)
    else if b = ascii '-' then
      (scanTokens rest).andThen fun tokens => .ok (.dash :: tokens)
    else
      (scanTokens rest).andThen fun tokens => .ok (.byte b :: tokens)

/-- The ranges of a token that is not part of a range. An unescaped hyphen that
    is not an operator stands for itself. -/
def Token.ranges : Token → List PatternRange
  | .byte b => [.single b]
  | .dash => [.single (ascii '-')]
  | .classEscape ranges => ranges

/-- Convert tokens into ranges from the left. A hyphen between two literal bytes
    is a range operator; the three tokens are consumed together. -/
def tokensToRanges : List Token → Outcome CompileError (List PatternRange)
  | [] => .ok []
  | .byte start :: .dash :: .byte stop :: rest =>
    if start > stop then
      invalidPattern "character class range endpoints are reversed"
    else
      (tokensToRanges rest).andThen fun ranges => .ok (.span start stop :: ranges)
  | .dash :: .dash :: _ =>
    invalidPattern "character class contains consecutive unescaped dashes"
  | token :: rest =>
    (tokensToRanges rest).andThen fun ranges => .ok (token.ranges ++ ranges)

/-- `std::str::from_utf8(text).is_ok()`. -/
def isUtf8 (text : List UInt8) : Bool := text.toByteArray.validateUTF8

def parseCharacterClass (text : List UInt8) : Outcome CompileError (List PatternRange) :=
  if isUtf8 text && text.any (fun b => b ≥ 0x80) then
    invalidPattern
      "character class contains non-ASCII codepoints; use raw bytes or an escape sequence"
  else
    (scanTokens text).andThen tokensToRanges

end Ebpfkit
