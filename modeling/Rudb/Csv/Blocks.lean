import Rudb.Csv.Scan
import Rudb.Graph.BitsProofs

/-! Splitting a buffer into records sixty-four bytes at a time, with a mask of bits for the bytes
that can end a field, the quotes and the escapes of each block, and the byte loop for every record
whose quotes are not where the masks take them to be. Embeds scan.rs of rudb-csv. -/
namespace Rudb.Csv
open Rudb.Graph List

/-- The bits of a block's bytes that are a given one, the first byte's bit lowest. -/
def maskOf (needle : UInt8) : List UInt8 → Word
  | [] => 0
  | byte :: rest => maskOf needle rest <<< 1 ||| if byte = needle then 1 else 0

/-- `below`: the bits below a count under sixty-four. -/
def below (count : Nat) : Word := ((1 : Word) <<< count) - 1

/-- What the blocks need to know about each byte. -/
structure Masks where
  quotes : Word
  ends : Word
  lines : Word
  escapes : Word

/-- `masks`. -/
def masks (block : List UInt8) (delimiter quote escape : UInt8) : Masks :=
  let lines := maskOf newline block ||| maskOf carriageReturn block
  { quotes := maskOf quote block
    ends := maskOf delimiter block ||| lines
    lines
    escapes := maskOf escape block }

theorem clearPair_lt (some_ : rest ≠ 0) :
    (rest &&& ~~~((3 : Word) <<< trailingZeros rest)).toNat < rest.toNat := by
  obtain ⟨⟨set, _⟩, lt⟩ := trailingZeros_isNth some_
  have le : (rest &&& ~~~((3 : Word) <<< trailingZeros rest)).toNat ≤ rest.toNat := by
    exact Nat.and_le_left
  refine lt_of_le_of_ne le fun same => ?_
  have cleared : (rest &&& ~~~((3 : Word) <<< trailingZeros rest)).getLsbD (trailingZeros rest) = false := by
    simp [lt]
  rw [BitVec.eq_of_toNat_eq same, set] at cleared
  cases cleared

/-- The bytes the escapes that are left cover, behind those already covered, and whether the first
byte behind the block is covered. -/
def coveredFrom (covered rest : Word) : Word × Bool :=
  if _some : rest = 0 then (covered, false)
  else if trailingZeros rest = 63 then (covered, true)
  else coveredFrom (covered ||| (2 : Word) <<< trailingZeros rest) (rest &&& ~~~((3 : Word) <<< trailingZeros rest))
termination_by rest.toNat
decreasing_by exact clearPair_lt _some

/-- `covered_by`: the bytes the escapes of a block cover, for an escape that is not the quote. -/
def coveredBy (escapes : Word) (carried : Bool) : Word × Bool :=
  if carried then coveredFrom 1 (escapes &&& ~~~1) else coveredFrom 0 escapes

/-- `prefix_xor`: every bit with an odd number of set bits at or below it. -/
def prefixXor (bits : Word) : Word :=
  let bits := bits ^^^ bits <<< 1
  let bits := bits ^^^ bits <<< 2
  let bits := bits ^^^ bits <<< 4
  let bits := bits ^^^ bits <<< 8
  let bits := bits ^^^ bits <<< 16
  bits ^^^ bits <<< 32

/-- Whether every quote in the inside of a field is one of a doubled pair, and whether there is one. -/
def pairsOnly (quote : UInt8) (inner : List UInt8) (escaped : Bool) : Option Bool :=
  match found : inner.findIdx? (· = quote) with
  | none => some escaped
  | some at' => if inner[at' + 1]? = some quote then pairsOnly quote (inner.drop (at' + 2)) true else none
termination_by inner.length
decreasing_by
  have := (findIdx?_eq_some_iff_findIdx_eq.mp found).1
  simp only [length_drop]
  omega

/-- Whether the first quote that no escape takes is the last byte, and whether there is an escape. -/
def escapesOnly (quote escape : UInt8) (inner : List UInt8) (escaped : Bool) : Option Bool :=
  match found : inner.findIdx? (fun byte => byte = quote || byte = escape) with
  | none => none
  | some at' =>
    if inner[at']? = some quote then if at' + 1 = inner.length then some escaped else none
    else if at' + 1 ≥ inner.length then none
    else escapesOnly quote escape (inner.drop (at' + 2)) true
termination_by inner.length
decreasing_by
  have := (findIdx?_eq_some_iff_findIdx_eq.mp found).1
  simp only [length_drop]
  omega

/-- `enclosed`: whether a field is shaped like a quoted one, and whether it then has an escape in it. -/
def enclosed (field : List UInt8) (quote escape : UInt8) : Option Bool :=
  match field with
  | [] => none
  | first :: inner =>
    if first ≠ quote then none
    else if escape ≠ quote then escapesOnly quote escape inner false
    else if inner.getLast? = some quote then pairsOnly quote inner.dropLast false
    else none

/-- Where the blocks are: the whole records, the fields of the record being read, where it and the
field being read start, and whether that field has a quote or an escape before this block. -/
structure Scan where
  out : List (List Span)
  pending : List Span
  record : Nat
  field : Nat
  quoted : Bool

/-- A record is about to be read. -/
def Scan.fresh (out : List (List Span)) (record : Nat) : Scan := ⟨out, [], record, record, false⟩

/-- How the bits of a block were walked: to their end, up to a field the masks cannot vouch for, or to
the answer. -/
inductive Walked where
  | on (scan : Scan)
  | stuck (scan : Scan)
  | answer (out : List (List Span)) (next : Nat)

section Blocks
variable (bytes : List UInt8) (dialect : Dialect) (eof : Bool) (limit : Nat)

/-- The range of a field that ends at a place, if the masks can vouch for it. -/
def fieldSpan (block : Nat) (marked : Word) (bit : Nat) (scan : Scan) : Option Span :=
  if scan.quoted || marked &&& below bit &&& ~~~below (scan.field - block) ≠ 0 then
    (enclosed ((bytes.drop scan.field).take (block + bit - scan.field)) dialect.quoteByte dialect.escapeByte).map
      fun escaped => Span.new (scan.field + 1) (block + bit - 1) escaped
  else some (Span.new scan.field (block + bit) false)

/-- The line endings and delimiters of a block that are not hidden, in order. -/
def walkBits (block : Nat) (marked lines structural : Word) (scan : Scan) : Walked :=
  if _some : structural = 0 then .on scan
  else
    let bit := trailingZeros structural
    let rest := clearLowest structural
    let at' := block + bit
    -- the second half of a line ending that the first half already dealt with
    if at' < scan.field then walkBits block marked lines rest scan
    else match fieldSpan bytes dialect block marked bit scan with
      | none => .stuck scan
      | some span =>
        let pending := scan.pending ++ [span]
        if !lines.getLsbD bit then
          walkBits block marked lines rest { scan with pending, field := at' + 1, quoted := false }
        else match behindLine bytes at' eof with
          | none => .answer scan.out scan.record
          | some next =>
            let out := scan.out ++ [pending]
            if out.length = limit then .answer out next
            else walkBits block marked lines rest (.fresh out next)
termination_by structural.toNat
decreasing_by all_goals exact clearLowest_lt _some

/-- The blocks from a place on, with whether the place is inside a quoted field and whether an escape
covers it. -/
def blocksFrom (block : Nat) (inside : Word) (carried : Bool) (scan : Scan) : Walked :=
  if block < bytes.length ∧ scan.out.length < limit then
    let quote := dialect.quoteByte
    let escape := dialect.escapeByte
    let stop := min bytes.length (block + 64)
    let found := masks ((bytes.drop block).take (stop - block)) dialect.delimiter quote escape
    let covered := if escape = quote then (0, carried) else coveredBy found.escapes carried
    let marked := found.quotes ||| found.escapes
    let parity := prefixXor (found.quotes &&& ~~~covered.1) ^^^ inside
    match walkBits bytes dialect eof limit block marked found.lines (found.ends &&& ~~~parity &&& ~~~covered.1) scan with
    | .on scan =>
      let quoted := scan.quoted || (scan.field < stop && marked >>> (scan.field - block) ≠ 0)
      blocksFrom stop ((0 : Word) - parity >>> 63) covered.2 { scan with quoted }
    | walked => walked
  else .stuck scan
termination_by bytes.length - block
decreasing_by omega

/-- The record a walk is in starts no earlier than a place. -/
def Walked.Past (start : Nat) : Walked → Prop
  | .on scan | .stuck scan => start ≤ scan.record ∧ scan.record ≤ scan.field
  | .answer _ _ => True

variable {bytes dialect eof limit} in
theorem walked_past
    (eq : walkBits bytes dialect eof limit block marked lines structural scan = walked)
    (past : start ≤ scan.record ∧ scan.record ≤ scan.field) : walked.Past start := by
  subst eq
  fun_induction walkBits bytes dialect eof limit block marked lines structural scan with
  | case1 | case3 => exact past
  | case2 structural scan some_ bit rest at' behind ih => exact ih past
  | case4 structural scan some_ bit rest at' inside span found pending line ih =>
    exact ih ⟨past.1, by simp only; omega⟩
  | case5 | case6 => trivial
  | case7 structural scan some_ bit rest at' inside span found pending line next behind out more ih =>
    have := lt_behindLine behind
    exact ih ⟨by simp only [Scan.fresh]; omega, le_rfl⟩

variable {bytes dialect eof limit} in
theorem blocksFrom_past {start block : Nat} {inside : Word} {carried : Bool} {scan : Scan}
    (past : start ≤ scan.record ∧ scan.record ≤ scan.field) :
    (blocksFrom bytes dialect eof limit block inside carried scan).Past start := by
  fun_induction blocksFrom bytes dialect eof limit block inside carried scan with
  | case1 block inside carried scan more quote escape stop found covered marked parity scan' walked quoted ih =>
    exact ih (walked_past walked past)
  | case2 block inside carried scan more quote escape stop found covered marked parity =>
    exact walked_past rfl past
  | case3 => exact past

/-- `blocks`: whole records from a place on, sixty-four bytes at a time, until there are as many as the limit. -/
def blocks (record : Nat) (out : List (List Span)) : List (List Span) × Except String Nat :=
  match _found : blocksFrom bytes dialect eof limit record 0 false (.fresh out record) with
  | .answer out next => (out, .ok next)
  | .on scan | .stuck scan =>
    if scan.out.length ≥ limit ∨ scan.record ≥ bytes.length then (scan.out, .ok scan.record)
    else match _read : spans bytes scan.record dialect eof with
      | .error message => (scan.out, .error message)
      | .ok none => (scan.out, .ok scan.record)
      | .ok (some (fields, next)) => blocks next (scan.out ++ [fields])
termination_by bytes.length - record
decreasing_by
  all_goals
    have past := @blocksFrom_past bytes dialect eof limit record record 0 false (.fresh out record)
      ⟨le_rfl, le_rfl⟩
    rw [_found] at past
    have lt := lt_readRecord _read
    simp only [Walked.Past] at past
    omega

/-- Whole records from a place on, a byte at a time. -/
def byteRecords (start : Nat) (out : List (List Span)) : List (List Span) × Except String Nat :=
  if out.length < limit then
    match spans bytes start dialect eof with
    | .error message => (out, .error message)
    | .ok none => (out, .ok start)
    | .ok (some (fields, next)) => byteRecords next (out ++ [fields])
  else (out, .ok start)
termination_by limit - out.length
decreasing_by
  simp only [length_append, length_singleton]
  omega

/-- Whether the masks can tell the bytes of a dialect apart. -/
def Dialect.masked (dialect : Dialect) : Bool :=
  let structural := fun byte => byte = dialect.quoteByte || lineEnd byte
  (dialect.escapeByte = dialect.quoteByte ||
      !structural dialect.escapeByte && dialect.escapeByte ≠ dialect.delimiter) &&
    !structural dialect.delimiter && dialect.comment.isNone

/-- `records`: whole records from a place on into what is already there, until there are as many as the limit,
and where the first record that was not taken starts. -/
def records (start : Nat) (out : List (List Span)) : List (List Span) × Except String Nat :=
  if dialect.masked then blocks bytes dialect eof limit start out else byteRecords bytes dialect eof limit start out

end Blocks

end Rudb.Csv
