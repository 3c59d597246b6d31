/-
UTF-8 as it is kept in memory.  Encoding is exact; decoding puts one replacement
character for each maximal part that begins no well-formed sequence.
-/
namespace MipsImage
namespace Text
namespace Utf8

def encode (s : String) : List UInt8 :=
  s.toList.flatMap String.utf8EncodeChar

/-! ## Well-formed sequences -/

/-- A byte that may stand in any place after the second. -/
def isContinuation (b : UInt8) : Bool :=
  0x80 ≤ b && b ≤ 0xbf

/-- The bytes that a sequence takes with this first byte; zero if none begins
with it. -/
def sequenceLength (lead : UInt8) : Nat :=
  if lead < 0x80 then 1
  else if 0xc2 ≤ lead && lead ≤ 0xdf then 2
  else if 0xe0 ≤ lead && lead ≤ 0xef then 3
  else if 0xf0 ≤ lead && lead ≤ 0xf4 then 4
  else 0

/-- Whether `second` may follow `lead`.  Some first bytes leave out a part of the
continuation bytes, which rules out overlong forms, surrogates and code points
past the last. -/
def mayFollow (lead second : UInt8) : Bool :=
  if lead = 0xe0 then 0xa0 ≤ second && second ≤ 0xbf
  else if lead = 0xed then 0x80 ≤ second && second ≤ 0x9f
  else if lead = 0xf0 then 0x90 ≤ second && second ≤ 0xbf
  else if lead = 0xf4 then 0x80 ≤ second && second ≤ 0x8f
  else isContinuation second

/-- The six bits of a continuation byte. -/
def payload (b : UInt8) : Nat :=
  b.toNat % 64

/-- Read what begins with `lead`: the character if the sequence is well formed,
and the bytes after the part that was looked at. -/
def step (lead : UInt8) (rest : List UInt8) : Option Char × List UInt8 :=
  match sequenceLength lead with
  | 1 => (some (Char.ofNat lead.toNat), rest)
  | 2 =>
    match rest with
    | b :: rest' =>
      if mayFollow lead b then (some (Char.ofNat (lead.toNat % 32 * 64 + payload b)), rest')
      else (none, rest)
    | [] => (none, [])
  | 3 =>
    match rest with
    | b :: rest' =>
      if mayFollow lead b then
        match rest' with
        | c :: rest'' =>
          if isContinuation c then
            (some (Char.ofNat ((lead.toNat % 16 * 64 + payload b) * 64 + payload c)), rest'')
          else (none, rest')
        | [] => (none, [])
      else (none, rest)
    | [] => (none, [])
  | 4 =>
    match rest with
    | b :: rest' =>
      if mayFollow lead b then
        match rest' with
        | c :: rest'' =>
          if isContinuation c then
            match rest'' with
            | d :: rest''' =>
              if isContinuation d then
                (some (Char.ofNat
                  (((lead.toNat % 8 * 64 + payload b) * 64 + payload c) * 64 + payload d)), rest''')
              else (none, rest'')
            | [] => (none, [])
          else (none, rest')
        | [] => (none, [])
      else (none, rest)
    | [] => (none, [])
  | _ => (none, rest)

theorem length_step_le (lead : UInt8) (rest : List UInt8) :
    (step lead rest).2.length ≤ rest.length := by
  unfold step
  repeat' split
  all_goals simp <;> omega

/-- Decode bytes, with one replacement character for each bad part. -/
def decodeLossy : List UInt8 → List Char
  | [] => []
  | lead :: rest => ((step lead rest).1).getD '�' :: decodeLossy (step lead rest).2
termination_by bytes => bytes.length
decreasing_by
  have := length_step_le lead rest
  simp only [List.length_cons]
  omega

end Utf8
end Text
end MipsImage
