/-
Strings from the source to memory and back.

A string between quotes, with what cannot stand there escaped, is one token whose value is the
string.  A terminated string directive puts its encoding into memory byte by byte, at whatever
place in a word the cursor is and in either byte order, and what is read back from there up to
the first zero is the string, unless it has a NUL itself.

The words that hold the bytes have to begin in a data region as well, since a byte is written
by writing its word.  That only says something about the first of them: a region may begin in
the middle of a word, and its bytes before the next word cannot be written.
-/
import MipsImage.Proofs.Assembler.Data
import MipsImage.Proofs.Source.Lexing
import MipsImage.Proofs.Text.Utf8

namespace MipsImage

/-! ## The token -/

namespace Lexer

/-- How a character is written in a string literal. -/
def escaped (c : Char) : List Char :=
  if c = '\n' then ['\\', 'n']
  else if c = '\t' then ['\\', 't']
  else if c = '\r' then ['\\', 'r']
  else if c = '\x00' then ['\\', '0']
  else if c = '\\' then ['\\', '\\']
  else if c = '"' then ['\\', '"']
  else [c]

def stringLiteral (s : String) : List Char :=
  '"' :: (s.toList.flatMap escaped ++ ['"'])

theorem scanStringBody_escape {e c : Char} (he : Text.unescape? e = some c) {used width : Nat}
    {rest value : List Char} (h : scanStringBody (used + 2) rest = .ok (value, width)) :
    scanStringBody used ('\\' :: e :: rest) = .ok (c :: value, width) := by
  simp only [scanStringBody, he, h]

theorem scanStringBody_verbatim {c : Char} (hquote : c ≠ '"') (hbackslash : c ≠ '\\')
    {used width : Nat} {rest value : List Char}
    (h : scanStringBody (used + 1) rest = .ok (value, width)) :
    scanStringBody used (c :: rest) = .ok (c :: value, width) := by
  rw [scanStringBody, h]
  · exact hquote
  · rintro h _
    exact hbackslash h
  · rintro e rest' h _
    exact hbackslash h

/-- A character is read off what is written for it, whatever follows. -/
theorem scanStringBody_escaped (c : Char) {used width : Nat} {rest value : List Char}
    (h : scanStringBody (used + (escaped c).length) rest = .ok (value, width)) :
    scanStringBody used (escaped c ++ rest) = .ok (c :: value, width) := by
  unfold escaped at h ⊢
  split_ifs at h ⊢ with h₁ h₂ h₃ h₄ h₅ h₆
  · exact scanStringBody_escape (by rw [h₁]; rfl) h
  · exact scanStringBody_escape (by rw [h₂]; rfl) h
  · exact scanStringBody_escape (by rw [h₃]; rfl) h
  · exact scanStringBody_escape (by rw [h₄]; rfl) h
  · exact scanStringBody_escape (by rw [h₅]; rfl) h
  · exact scanStringBody_escape (by rw [h₆]; rfl) h
  · exact scanStringBody_verbatim h₆ h₅ h

theorem scanStringBody_flatMap (cs : List Char) (used : Nat) :
    scanStringBody used (cs.flatMap escaped ++ ['"']) =
      .ok (cs, used + (cs.flatMap escaped).length + 1) := by
  induction cs generalizing used with
  | nil => rfl
  | cons c cs ih =>
    rw [List.flatMap_cons, List.append_assoc]
    refine scanStringBody_escaped c ?_
    rw [ih, List.length_append, Nat.add_assoc used]

/-- A string between quotes is one token, with the string as its value. -/
theorem tokens_stringLiteral (s : String) (file : String) (line : Nat) :
    tokens file line (String.ofList (stringLiteral s)) =
      .ok [⟨.string s, String.ofList (stringLiteral s), ⟨file, line, 1⟩⟩] := by
  have hlength : (s.toList.flatMap escaped ++ ['"']).length =
      1 + (s.toList.flatMap escaped).length + 1 - 1 := by
    rw [List.length_append, List.length_singleton]
    omega
  have hfront : front none '"' (s.toList.flatMap escaped ++ ['"']) =
      .lexeme ⟨.string s, String.ofList (stringLiteral s),
        (s.toList.flatMap escaped ++ ['"']).length⟩ := by
    show Front.ofScan (scanString _) = _
    rw [scanString, scanStringBody_flatMap, hlength]
    dsimp only
    rw [← hlength, List.take_length, String.ofList_toList]
    rfl
  rw [tokens, String.toList_ofList]
  refine scan_of_front hfront ?_
  rw [List.drop_length, scan]

end Lexer

/-! ## The bytes -/

theorem ByteOrder.toBytes_byte (order : ByteOrder) (byte : UInt8) :
    order.toBytes 1 (UInt32.ofNat byte.toNat).toNat = [byte] := by
  have hbyte := byte.toNat_lt
  have hword : (UInt32.ofNat byte.toNat).toNat = byte.toNat := by
    rw [UInt32.toNat_ofNat']
    omega
  rw [hword]
  cases order <;> simp [toBytes, lowBytes]

theorem FlatBytes.lay_bytes (order : ByteOrder) (b : FlatBytes) (a : Address) {bytes : List UInt8}
    (h : bytes.length ≤ 4294967296) :
    lay order 1 b a (bytes.map fun byte => UInt32.ofNat byte.toNat) = b.write a bytes := by
  rw [lay_eq_write (by rw [List.length_map]; omega), List.flatMap_map]
  simp only [ByteOrder.toBytes_byte, List.flatMap_singleton']

theorem Memory.areaOf?_of_contains {m : Memory} {which : DataArea} {x : Address}
    (h : (m.dataRegion which).contains x = true) : ∃ area, m.areaOf? x = some (.data area) := by
  unfold areaOf?
  split_ifs with h₁ h₂ h₃
  · exact ⟨_, rfl⟩
  · exact ⟨_, rfl⟩
  · exact ⟨_, rfl⟩
  all_goals cases which <;> contradiction

/-- The word of every byte of a span is in the range if that of the first is. -/
theorem AddressRange.contains_of_span {r : AddressRange} {c : Address} {n i : Nat}
    (hspan : r.containsSpan c (n + 1) = true) (hword : r.contains (Word.containing c) = true)
    (hi : i ≤ n) :
    c.toNat + n < 4294967296 ∧ r.contains (Word.containing (c + UInt32.ofNat i)) = true := by
  have hlast := r.last.toNat_lt
  simp only [containsSpan, contains, Bool.and_eq_true, decide_eq_true_eq, UInt32.le_iff_toNat_le,
    Word.toNat_containing, toNat_add_ofNat] at hspan hword ⊢
  omega

namespace Assembler

variable {a b : Assembler}

/-- Bytes of data are never refused. -/
theorem Outcome.filled_of_data {es : List Element} {stored : Bool} (h : Outcome 1 a es (stored, b))
    (hm : a.memory.Passive) (hdata : ∀ i < es.length,
      ∃ which, a.memory.areaOf? (Word.containing (a.segments.cursor + UInt32.ofNat i)) =
        some (.data which)) : Filled 1 a es b := by
  cases h with
  | complete filled => exact filled
  | @cut before after e b fault split filled refused =>
    have hshort : before.length < es.length := by
      rw [split, List.length_append, List.length_cons]
      omega
    obtain ⟨which, harea⟩ := hdata before.length hshort
    rw [← (filled.stores.lays (.inl rfl) hm).1.area] at harea
    rw [filled.segments, Segments.cursor_advance, Nat.one_mul] at refused
    exfalso
    cases refused with
    | misaligned odd => exact odd (Nat.mod_one _)
    | outOfRange aligned area => simp [harea] at area
    | textWriteProtected aligned area off => simp [harea] at area
    | undecodable aligned area on spliced unknown => simp [harea] at area

theorem map_value_byteElements (location : Location) (bytes : List UInt8) :
    (byteElements location bytes).map (·.value) =
      bytes.map fun byte => UInt32.ofNat byte.toNat := by
  rw [byteElements, List.map_map]
  rfl

/-- Bytes that are stored are read back from where they were put. -/
theorem Filled.read_bytes {location : Location} {bytes : List UInt8}
    (h : Filled 1 a (byteElements location bytes) b) (hm : a.memory.Passive)
    (hshort : bytes.length ≤ 4294967296) :
    FlatBytes.read b.memory.byteAt a.segments.cursor bytes.length = bytes := by
  rw [(h.stores.lays (.inl rfl) hm).2, map_value_byteElements, FlatBytes.lay_bytes _ _ _ hshort,
    FlatBytes.read_write_self _ _ hshort]

/-- A terminated string whose bytes all go into data is read back. -/
theorem fetchString_asciiz {s : String} {t : Token} (ht : t.kind = .string s)
    (hnul : '\x00' ∉ s.toList) (directive : Token) (hm : a.memory.Passive)
    (hactive : a.segments.active.isData = true) {which : DataArea}
    (hspan : (a.memory.dataRegion which).range.containsSpan a.segments.cursor
      ((Text.Utf8.encode s).length + 1) = true)
    (hword : (a.memory.dataRegion which).contains (Word.containing a.segments.cursor) = true) :
    (runDirective .asciiz directive [t] a).memory.fetchString a.segments.cursor = .ok s := by
  have hcontent : DataEntry.withoutCommas [t] = [t] := by
    simp [DataEntry.withoutCommas, ht]
  have hdenotes : Denotes .asciiz (DataEntry.withoutCommas [t]) 1
      (byteElements t.location (Text.Utf8.encode s ++ [0])) := by
    have hstrings : Strings true [t] _ := .cons ht .nil
    rw [if_pos rfl, List.append_nil] at hstrings
    rw [hcontent]
    exact .asciiz hstrings
  obtain ⟨a₁, ⟨hmemory, -, hstart⟩, stored, houtcome⟩ :=
    runDirective_written directive hactive (List.cons_ne_nil t []) hdenotes
  rw [dataStart_one] at hstart
  rw [← hmemory] at hm hspan hword
  rw [← hstart] at hspan hword ⊢
  have hfits {i : Nat} (hi : i ≤ (Text.Utf8.encode s).length) :=
    AddressRange.contains_of_span hspan hword hi
  have hlength : (Text.Utf8.encode s ++ [0]).length = (Text.Utf8.encode s).length + 1 := by
    rw [List.length_append, List.length_singleton]
  have hend := (hfits (Nat.le_refl _)).1
  have hdata {i : Nat} (hi : i ≤ (Text.Utf8.encode s).length) :=
    Memory.areaOf?_of_contains (hfits hi).2
  have hfilled := houtcome.filled_of_data hm fun i hi => by
    rw [byteElements, List.length_map, hlength] at hi
    exact hdata (Nat.le_of_lt_succ hi)
  have hread := hfilled.read_bytes hm (by omega)
  rw [hlength] at hread
  have hbytes := Memory.fetchBytes_of_read (Text.Utf8.zero_notMem_encode hnul) hread
    (fun i hi => by
      obtain ⟨area, harea⟩ := hdata hi
      rw [Memory.wordAt, (hfilled.stores.lays (.inl rfl) hm).1.area, harea]
      rfl) hend
  rw [Memory.fetchString, hbytes]
  dsimp only
  rw [Text.Utf8.decodeLossy_encode, String.ofList_toList]

/-- A string survives being written as a literal, read as a token, stored and read back.  The
cursor may be anywhere in a word, and memory in either byte order; only the first word of the
string has to begin in the data region too. -/
theorem stringLiteral_survives (s file : String) (line : Nat) :
    ∃ t, Lexer.tokens file line (String.ofList (Lexer.stringLiteral s)) = .ok [t] ∧
      t.kind = .string s ∧ t.literal.toList = Lexer.stringLiteral s ∧
      ('\x00' ∉ s.toList → ∀ (a : Assembler) (directive : Token) (which : DataArea),
        a.memory.Passive → a.segments.active.isData = true →
        (a.memory.dataRegion which).range.containsSpan a.segments.cursor
          ((Text.Utf8.encode s).length + 1) = true →
        (a.memory.dataRegion which).contains (Word.containing a.segments.cursor) = true →
        (runDirective .asciiz directive [t] a).memory.fetchString a.segments.cursor = .ok s) := by
  refine ⟨_, Lexer.tokens_stringLiteral s file line, rfl, String.toList_ofList, ?_⟩
  intro hnul a directive which hm hactive hspan hword
  exact fetchString_asciiz rfl hnul directive hm hactive hspan hword

/-- Characters of one to four bytes and a quote, from the last byte of a word on, while a
listener follows them. -/
theorem stringLiteral_survives_unaligned :
    let m := ((Memory.ofSettings ⟨Layout.standard, .big, false⟩).addListener
      ⟨1, fun _ => []⟩).watchEverywhere 0
    let segments := ((Segments.ofLayout m.layout).switchTo .data).setCursor 0x10010007
    let a := { start ⟨none, false⟩ m with segments }
    let s := String.ofList ['#', 'é', '"', '漢', '😀']
    Lexer.stringLiteral s = ['"', '#', 'é', '\\', '"', '漢', '😀', '"'] ∧
      (Text.Utf8.encode s).length = 11 ∧ '\x00' ∉ s.toList ∧
      ∃ t, Lexer.tokens "s.s" 1 (String.ofList (Lexer.stringLiteral s)) = .ok [t] ∧
        t.kind = .string s ∧
        (runDirective .asciiz ⟨.directive, ".asciiz", ⟨"s.s", 1, 1⟩⟩ [t] a).memory.fetchString
          0x10010007 = .ok s := by
  intro m segments a s
  have hchars : s.toList = ['#', 'é', '"', '漢', '😀'] := String.toList_ofList
  have hlength : (Text.Utf8.encode s).length = 11 := by
    rw [Text.Utf8.encode, hchars]
    decide +kernel
  have hnul : '\x00' ∉ s.toList := by
    rw [hchars]
    decide
  have hm : a.memory.Passive :=
    (Memory.passive_ofSettings _).addListener (Listener.within_idle _ 1)
  obtain ⟨t, htokens, hkind, -, hread⟩ := stringLiteral_survives s "s.s" 1
  refine ⟨?_, hlength, hnul, t, htokens, hkind, hread hnul a _ .user hm rfl ?_ ?_⟩
  · rw [Lexer.stringLiteral, hchars]
    decide +kernel
  · rw [hlength]
    decide +kernel
  · decide +kernel

/-- A string whose span fits a data region and that is not read back: it begins in a word that
does not begin in the region. -/
theorem stringLiteral_lost :
    let directive : Token := ⟨.directive, ".asciiz", ⟨"s.s", 2, 1⟩⟩
    let t : Token := ⟨.string "A", "\"A\"", ⟨"s.s", 2, 9⟩⟩
    let m := Memory.ofSettings
      ⟨{ Layout.standard with data := ⟨0x10010002, 0x7fffffff⟩ }, .little, false⟩
    let a := { start ⟨none, false⟩ m with
      segments := ((Segments.ofLayout m.layout).switchTo .data).setCursor 0x10010002 }
    (m.dataRegion .user).range.containsSpan 0x10010002 2 = true ∧
      (runDirective .asciiz directive [t] a).memory.fetchString 0x10010002 =
        .error (.load 0x10010002 .outOfRange) := by
  intro directive t m a
  refine ⟨by decide +kernel, ?_⟩
  have harea : (runDirective .asciiz directive [t] a).memory.areaOf?
      (Word.containing 0x10010002) = none := by
    decide +kernel
  have hpeek : (runDirective .asciiz directive [t] a).memory.peek 0x10010002 1 =
      .error (.load 0x10010002 .outOfRange) := by
    have halign : Memory.misalignment? 0x10010002 1 = none := if_pos (Nat.mod_one _)
    simp only [Memory.peek, halign, harea]
  rw [Memory.fetchString, Memory.fetchBytes, hpeek]

end Assembler
end MipsImage
