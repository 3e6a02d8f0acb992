/-
# RegoSyntax.Text.Utf8 — bytes as text.

Reading bytes that need not be text.  Valid sequences are decoded; of an invalid one, each longest
piece that could have started a valid sequence (or the first byte, if there is none) is shown as
one replacement character.
-/

namespace RegoSyntax.Text

/-- The character that stands for bytes which are no text. -/
def replacement : Char := '\uFFFD'

/-- Whether a byte continues a sequence, with the bounds that its first continuation has. -/
def continues (lo hi : Nat) (b : UInt8) : Bool := lo ≤ b.toNat && b.toNat ≤ hi

/-- How many continuation bytes a first byte asks for, and the bounds of the first of them: longer
spellings than necessary, surrogates and numbers that are too large are excluded there. -/
def continuation? (b : UInt8) : Option (Nat × Nat × Nat) :=
  let n := b.toNat
  if 0xC2 ≤ n && n ≤ 0xDF then some (1, 0x80, 0xBF)
  else if n == 0xE0 then some (2, 0xA0, 0xBF)
  else if n == 0xED then some (2, 0x80, 0x9F)
  else if 0xE1 ≤ n && n ≤ 0xEF then some (2, 0x80, 0xBF)
  else if n == 0xF0 then some (3, 0x90, 0xBF)
  else if 0xF1 ≤ n && n ≤ 0xF3 then some (3, 0x80, 0xBF)
  else if n == 0xF4 then some (3, 0x80, 0x8F)
  else none

/-- The first character of a sequence of bytes and how many bytes it takes; no character if they
are not the start of a text. -/
def decodeFirst : List UInt8 → Option Char × Nat
  | [] => (none, 0)
  | b :: rest =>
    if b.toNat < 0x80 then (some (Char.ofNat b.toNat), 1)
    else
      match continuation? b with
      | none => (none, 1)
      | some (more, lo, hi) =>
        match rest with
        | c :: rest =>
          if !continues lo hi c then (none, 1)
          else if more == 1 then
            (some (Char.ofNat ((b.toNat % 0x20) * 0x40 + c.toNat % 0x40)), 2)
          else
            match rest with
            | d :: rest =>
              if !continues 0x80 0xBF d then (none, 2)
              else if more == 2 then
                (some (Char.ofNat
                  (((b.toNat % 0x10) * 0x40 + c.toNat % 0x40) * 0x40 + d.toNat % 0x40)), 3)
              else
                match rest with
                | e :: _ =>
                  if !continues 0x80 0xBF e then (none, 3)
                  else
                    (some (Char.ofNat
                      ((((b.toNat % 8) * 0x40 + c.toNat % 0x40) * 0x40 + d.toNat % 0x40) * 0x40
                        + e.toNat % 0x40)), 4)
                | [] => (none, 3)
            | [] => (none, 2)
        | [] => (none, 1)

/-- The characters of a sequence of bytes; `none` marks a piece that is no text.  Every step takes
at least one byte, so as many steps as there are bytes suffice. -/
def decodeUpTo : (fuel : Nat) → List UInt8 → List (Option Char)
  | 0, _ => []
  | _, [] => []
  | fuel + 1, bytes =>
    let (c, n) := decodeFirst bytes
    c :: decodeUpTo fuel (bytes.drop n)

/-- The characters of a sequence of bytes; `none` marks a piece that is no text. -/
def decode (bytes : List UInt8) : List (Option Char) := decodeUpTo bytes.length bytes

/-- Bytes as text, with replacement characters for what is none. -/
def decodeLossy (bytes : List UInt8) : String :=
  String.ofList ((decode bytes).map (·.getD replacement))

/-- Bytes as text, if all of them are. -/
def decode? (bytes : List UInt8) : Option String := ((decode bytes).mapM id).map String.ofList

end RegoSyntax.Text
