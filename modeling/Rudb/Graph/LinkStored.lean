import Rudb.Graph.LinkAnswers

/-! A link built from its children, written and read back. -/
namespace Rudb.Graph
open Rudb.Lib Rudb.Encoding LittleEndian List

theorem Link.read_bytes {children parents linked : Nat} {form : Form} {width : UInt8} {rest : List UInt8}
    (small : children < 2 ^ 64) (small' : parents < 2 ^ 64) (small'' : linked < 2 ^ 64) :
    Link.read (toBytes 8 children ++ (toBytes 8 parents ++ (toBytes 8 linked ++
      ([UInt8.ofNat form.tag, width, layout, 0, 0, 0, 0, 0] ++ rest)))) =
      (Link.readBody { children, parents, linked, form } width.toNat rest).map fun body =>
        { children, parents, linked, body } := by
  generalize bytes_eq : toBytes 8 children ++ (toBytes 8 parents ++ (toBytes 8 linked ++
      ([UInt8.ofNat form.tag, width, layout, 0, 0, 0, 0, 0] ++ rest))) = bytes
  have first : LittleEndian.read 8 0 bytes = children := by
    rw [← bytes_eq]
    exact read_front small _
  have second : LittleEndian.read 8 8 bytes = parents := by
    rw [← bytes_eq]
    exact read_append (length_toBytes 8 _) small' _
  have third : LittleEndian.read 8 16 bytes = linked := by
    rw [← bytes_eq, ← append_assoc]
    exact read_append (by simp) small'' _
  have front : bytes = (toBytes 8 children ++ toBytes 8 parents ++ toBytes 8 linked) ++
      ([UInt8.ofNat form.tag, width, layout, 0, 0, 0, 0, 0] ++ rest) := by simp [← bytes_eq]
  have length : (toBytes 8 children ++ toBytes 8 parents ++
      toBytes 8 linked).length = 24 := by simp
  have byte (index : Nat) : bytes.getD (24 + index) 0 =
      ([UInt8.ofNat form.tag, width, layout, 0, 0, 0, 0, 0] ++ rest).getD index 0 := by
    rw [front, getD_eq_getElem?_getD, getElem?_append_right (by omega), length, Nat.add_sub_cancel_left,
      ← getD_eq_getElem?_getD]
  have behind : bytes.drop headerBytes = rest := by
    rw [front, ← append_assoc]
    exact drop_left' (by rw [length_append]; rfl)
  have long : ¬bytes.length < headerBytes := by
    rw [front, length_append, length]
    simp only [headerBytes, length_append, length_cons, length_nil]
    omega
  have tag : Form.fromTag (bytes.getD 24 0).toNat = .ok form := by
    rw [byte 0]
    cases form <;> rfl
  have version : bytes.getD 26 0 = layout := byte 2
  have wide : bytes.getD 25 0 = width := byte 1
  rw [Link.read, Link.counts, if_neg long, tag]
  simp only [Except.bind, version, ne_eq, not_true_eq_false, if_false, first, second, third, wide, behind]

theorem Link.length_heads (heads : List Bounds) : (heads.flatMap headBytes).length = heads.length * 16 := by
  induction heads with
  | nil => rfl
  | cons head heads ih =>
    simp [headBytes]
    omega

theorem readHead_eq {heads : List Bounds} (found : heads[part]? = some bounds)
    (small : ∀ low high, bounds = some (low, high) → low < noParent ∧ high < 2 ^ 64) :
    Link.readHead (heads.flatMap Link.headBytes ++ rest) part = bounds := by
  obtain ⟨inside, here⟩ := List.getElem?_eq_some_iff.mp found
  have split : heads.flatMap Link.headBytes ++ rest = (heads.take part).flatMap Link.headBytes ++
      (Link.headBytes bounds ++ ((heads.drop (part + 1)).flatMap Link.headBytes ++ rest)) := by
    conv_lhs => rw [← take_append_drop part heads, drop_eq_getElem_cons inside, here]
    simp
  have starts : ((heads.take part).flatMap Link.headBytes).length = part * 16 := by
    rw [Link.length_heads, length_take_of_le inside.le]
  -- the two fields of the part, whatever they are
  have fields {low high : Nat} (low_lt : low < 2 ^ 64) (high_lt : high < 2 ^ 64) (rest' : List UInt8) :
      LittleEndian.read 8 (part * 16) ((heads.take part).flatMap Link.headBytes ++
        (toBytes 8 low ++ toBytes 8 high ++ rest')) = low ∧
      LittleEndian.read 8 (part * 16 + 8) ((heads.take part).flatMap Link.headBytes ++
        (toBytes 8 low ++ toBytes 8 high ++ rest')) = high := by
    constructor
    · exact read_append starts low_lt _
    · rw [append_assoc, ← append_assoc]
      exact read_append (by simp [starts]) high_lt _
  rw [split, Link.readHead]
  cases bounds with
  | none =>
    obtain ⟨low, -⟩ := @fields noParent noParent (by decide) (by decide)
      ((heads.drop (part + 1)).flatMap Link.headBytes ++ rest)
    rw [if_pos]
    exact low
  | some pair =>
    obtain ⟨low, high⟩ := pair
    obtain ⟨low_lt, high_lt⟩ := small low high rfl
    obtain ⟨low_eq, high_eq⟩ := fields (low_lt.trans (by decide)) high_lt
      ((heads.drop (part + 1)).flatMap Link.headBytes ++ rest)
    have bytes : Link.headBytes (some (low, high)) = toBytes 8 low ++ toBytes 8 high := rfl
    rw [bytes, low_eq, high_eq, if_neg low_lt.ne]

/-- A packed link read back from what it wrote is the same link. -/
theorem Link.read_packed {children parents linked : Nat} {bytes : List UInt8}
    {heads : List Bounds} (short : children < 2 ^ 64)
    (small : parents < 2 ^ 64) (some_ : linked < 2 ^ 64) (length : bytes.length = tailLen children (widthFor parents))
    (parts : heads.length = (children + partRows - 1) / partRows)
    (fits : ∀ low high, some (low, high) ∈ heads → low < noParent ∧ high < 2 ^ 64) :
    ∃ out, Link.write ⟨children, parents, linked, .packed bytes (widthFor parents) heads⟩ = .ok out ∧
      Link.read out = .ok ⟨children, parents, linked, .packed bytes (widthFor parents) heads⟩ := by
  have width := widthFor_le small
  have name : (UInt8.ofNat (widthFor parents)).toNat = widthFor parents :=
    UInt8.toNat_ofNat_of_lt' (show widthFor parents < 256 by omega)
  have size : (heads.flatMap headBytes).length = (children + partRows - 1) / partRows * 16 := by
    rw [← parts, length_heads]
  have held : (List.range ((children + partRows - 1) / partRows)).map (readHead (heads.flatMap headBytes ++ bytes)) =
      heads := by
    rw [← parts]
    refine ext_getElem? fun part => ?_
    rw [getElem?_map]
    cases found : heads[part]? with
    | none =>
      have past := getElem?_eq_none_iff.mp found
      rw [getElem?_eq_none (by rw [length_range]; exact past), Option.map_none]
    | some bounds =>
      rw [List.getElem?_range (List.getElem?_eq_some_iff.mp found).1, Option.map_some, readHead_eq found]
      rintro low high rfl
      exact fits low high (List.mem_of_getElem? found)
  refine ⟨_, by rw [Link.write, Link.widthByte, if_pos (by omega)]; rfl, ?_⟩
  refine (@Link.read_bytes children parents linked .packed _ _ short small some_).trans ?_
  simp only [Link.readBody, Link.bodyBytes, name, ne_eq, not_true_eq_false, if_false]
  rw [if_neg (by rw [length_append, size, length]; exact fun differs => differs rfl), drop_left' size, held]
  rfl

theorem Link.read_monotone {children parents linked : Nat} (short : children < 2 ^ 64)
    (small : parents < 2 ^ 64) (some_ : linked < 2 ^ 64)
    (read : BitVector.read vector.write (linked + parents) = .ok vector) :
    ∃ out, Link.write ⟨children, parents, linked, .monotone vector⟩ = .ok out ∧
      Link.read out = .ok ⟨children, parents, linked, .monotone vector⟩ := by
  refine ⟨_, rfl, ?_⟩
  refine (@Link.read_bytes children parents linked .monotone _ _ short small some_).trans ?_
  simp only [Link.readBody, Link.bodyBytes, read]
  rfl

theorem scanChildren_linked
    (run : scanChildren parents scan parentsOf = .ok scan') :
    scan'.linked = scan.linked + parentsOf.countP (· ≠ noParent) := by
  induction parentsOf generalizing scan with
  | nil =>
    cases run
    rfl
  | cons parent rest ih =>
    rw [scanChildren] at run
    by_cases absent : parent = noParent
    · rw [show scanChild parents scan parent = .ok { scan with monotone := false } from if_pos absent] at run
      rw [ih run]
      simp [absent]
    by_cases lt : parent < parents
    · rw [scanChild, if_neg absent, if_neg (by omega)] at run
      rw [ih run, countP_cons_of_pos (by simpa using absent)]
      dsimp only
      omega
    · rw [scanChild, if_neg absent, if_pos (not_lt.mp lt)] at run
      cases run

structure Link.Built (link : Link) (parentsOf : List Nat) (parents : Nat) : Prop where
  children : link.children = parentsOf.length
  linked : link.linked = parentsOf.countP (· ≠ noParent)
  below : ∀ parent ∈ parentsOf, parent = noParent ∨ parent < parents
  answers : link.Answers parentsOf parents
  runs : ∀ vector, link.body = .monotone vector → Runs parentsOf parents vector
  parents : link.parents = parents

/-- The link of any children, read back as it was written, while 32 bits count those of a monotone one and name its
words. -/
theorem Link.exists_built {parents : Nat} (small : parents < 2 ^ 64) (short : parentsOf.length < 2 ^ 58)
    (below : Below parentsOf parents)
    (counted : noParent ∉ parentsOf → parentsOf.Pairwise (· ≤ ·) →
      parentsOf.length < 2 ^ 32 ∧ parentsOf.length + parents ≤ 2 ^ 38) :
    ∃ link, Link.build parentsOf parents = .ok link ∧ link.Built parentsOf parents ∧
      ∃ bytes, link.write = .ok bytes ∧ Link.read bytes = .ok link := by
  obtain ⟨scan, run, linked_le, monotone⟩ := scanChildren_eq below ⟨0, true, 0⟩
  have linked := scanChildren_linked run
  rw [zero_add] at linked linked_le
  unfold Link.build
  simp only [run, Except.bind]
  by_cases form : scan.monotone ∧ 0 < parents
  · obtain ⟨-, present, sorted, all⟩ := monotone form.1
    have sorted := (pairwise_cons.mp sorted).2
    rw [zero_add] at all
    obtain ⟨few, words⟩ := counted present sorted
    obtain ⟨vector, filled, runs, read⟩ := runs_sound sorted (fun parent member =>
      (below parent member).resolve_left fun absent => present (absent ▸ member)) few words
    have long : parentsOf.length < 2 ^ 64 := by omega
    rw [if_pos form, filled]
    exact ⟨_, rfl, ⟨rfl, linked, below, Link.OfRuns.answers ⟨runs, rfl, rfl, rfl, long, present⟩,
      (fun vector' same => by cases same; exact runs), rfl⟩,
        Link.read_monotone long small (by rw [all]; exact long) (all ▸ read)⟩
  · obtain ⟨bytes, heads, packed, length, heads_eq, ofPacked⟩ := packedBody_eq small short below
    have fits : ∀ low high, some (low, high) ∈ heads → low < noParent ∧ high < 2 ^ 64 := by
      intro low high member
      rw [heads_eq] at member
      obtain ⟨part, -, bounds⟩ := mem_map.mp member
      have exact_ := foldl_widen (partOf parentsOf part)
      rw [bounds] at exact_
      obtain ⟨low_mem, high_mem, low_ne, high_ne, -⟩ := exact_
      have held {parent : Nat} (among : parent ∈ partOf parentsOf part) (there : parent ≠ noParent) : parent < parents :=
        (below parent (mem_of_mem_drop (mem_of_mem_take among))).resolve_left there
      have := held low_mem low_ne
      have := held high_mem high_ne
      unfold noParent
      omega
    rw [if_neg form, packed]
    exact ⟨_, rfl, ⟨rfl, linked, below, (ofPacked _ rfl rfl).answers small, (fun vector same => by cases same), rfl⟩,
      @Link.read_packed parentsOf.length parents scan.linked bytes heads (by omega) small (by omega)
        length (by rw [heads_eq, length_map, length_range]) fits⟩

/-- A link built from any children, and the link read back from what it wrote, answer every question as
the children do, while 32 bits count the children of a monotone one and name its words. -/
theorem link_answers_exactly {parentsOf : List Nat} {parents : Nat} (small : parents < 2 ^ 64)
    (short : parentsOf.length < 2 ^ 58) (below : ∀ parent ∈ parentsOf, parent = noParent ∨ parent < parents)
    (counted : noParent ∉ parentsOf → parentsOf.Pairwise (· ≤ ·) →
      parentsOf.length < 2 ^ 32 ∧ parentsOf.length + parents ≤ 2 ^ 38) :
    ∃ link, Link.build parentsOf parents = .ok link ∧ link.Answers parentsOf parents ∧
      ∃ bytes, link.write = .ok bytes ∧ ∃ link', Link.read bytes = .ok link' ∧ link'.Answers parentsOf parents := by
  obtain ⟨link, made, built, bytes, written, again⟩ := Link.exists_built small short below counted
  exact ⟨link, made, built.answers, bytes, written, link, again, built.answers⟩

/-- Both forms: children in the order of their parents, and children of which one has none. -/
theorem link_answers_exactly_few : (∃ link, Link.build [0, 0, 2] 3 = .ok link ∧ link.Answers [0, 0, 2] 3 ∧
      ∃ bytes, link.write = .ok bytes ∧ ∃ link', Link.read bytes = .ok link' ∧ link'.Answers [0, 0, 2] 3) ∧
    ∃ link, Link.build [2, noParent, 0] 3 = .ok link ∧ link.Answers [2, noParent, 0] 3 ∧
      ∃ bytes, link.write = .ok bytes ∧ ∃ link', Link.read bytes = .ok link' ∧ link'.Answers [2, noParent, 0] 3 :=
  ⟨link_answers_exactly (by decide) (by decide) (by decide) fun _ _ => by decide,
    link_answers_exactly (by decide) (by decide) (by decide) fun _ _ => by decide⟩

theorem scanChildren_replicate (count : Nat) (scan : Scan) (first : scan.previous = 0) :
    scanChildren 1 scan (replicate count 0) = .ok { scan with linked := scan.linked + count } := by
  induction count generalizing scan with
  | zero => rfl
  | succ count ih =>
    have here : scanChild 1 scan 0 = .ok { scan with linked := scan.linked + 1 } := by
      rw [scanChild, if_neg (by decide)]
      simp [← first]
    rw [replicate_succ, scanChildren, here]
    simp only [Except.bind]
    rw [ih { scan with linked := scan.linked + 1 } first]
    congr 2
    dsimp only
    omega

/-- A link of one parent whose children are a multiple of 2^32: the count of them all wraps to zero. -/
theorem forwardEach_wraps {count : Nat} (positive : 0 < count) (wraps : count % 2 ^ 32 = 0) :
    ∃ link, Link.build (List.replicate count 0) 1 = .ok link ∧ link.forwardEach [0] = [noParent] := by
  have sorted : (List.replicate count 0).Pairwise (· ≤ ·) := pairwise_replicate.mpr (.inr (le_refl 0))
  have below : ∀ parent ∈ List.replicate count 0, parent < 1 := fun parent member => by
    rw [(mem_replicate.mp member).2]
    decide
  obtain ⟨words, length, marks, made⟩ := runs_words sorted below
  have tail := marks.tail below
  have ones := marks.ones below length sorted
  rw [List.length_replicate] at length made tail ones
  refine ⟨⟨count, 1, count, .monotone (BitVector.indexed words (count + 1) (Rank.build words))⟩, ?_, ?_⟩
  · rw [Link.build, scanChildren_replicate count _ rfl]
    rw [made, BitVector.new_eq length tail, List.length_replicate, zero_add]
    rfl
  -- the search sees no one in the bitmap at all
  have total : (Rank.build words).onesBeforeWord words.length = 0 := by
    rw [Rank.onesBeforeWord, Rank.build, Rank.refineFrom_getD (by decide) le_rfl, ones, zero_add, wraps]
  have held : (Rank.build words).wordHolding 0 0 = none := by
    rw [Rank.wordHolding, show (Rank.build words).fine.length = words.length + 1 from Rank.refineFrom_length 0]
    exact if_pos (.inr (.inr total.le))
  simp only [Link.forwardEach, Link.readChildren, Link.readChild]
  rw [if_neg (Nat.not_le_of_lt positive), if_neg fun near => absurd near.1 (by decide)]
  simp only [Link.searchChild]
  rw [if_pos (by decide), show (BitVector.indexed words (count + 1) (Rank.build words)).rank =
    Rank.build words from rfl, held]

/-- The first child of 2^32 children of one parent has that parent, and is answered to have none. -/
theorem many_children_lost :
    ∃ link, Link.build (List.replicate (2 ^ 32) 0) 1 = .ok link ∧ link.forwardEach [0] = [noParent] ∧
      (List.replicate (2 ^ 32) 0)[0]? = some 0 := by
  obtain ⟨link, built, answer⟩ := forwardEach_wraps (show 0 < 2 ^ 32 by decide) (by decide)
  exact ⟨link, built, answer, getElem?_replicate_of_lt (by decide)⟩

end Rudb.Graph
