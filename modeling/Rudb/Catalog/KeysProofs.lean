import Rudb.Catalog.IntsProofs
import Rudb.Catalog.Keys

/-! Sets of keys that share their runs, each beside the plain set of the keys it should hold. -/
namespace Rudb.Catalog
open Lib List

namespace Encoded

def Fits : Encoded → Prop
  | .int number => I64 number
  | _ => True

/-- Whether a key is another. A null is no key. -/
def same (key other : Encoded) : Bool := key ≠ .null && key = other

@[grind →]
theorem eq_of_same {other : Encoded} (is : key.same other = true) : other = key := by
  simp only [same, Bool.and_eq_true, decide_eq_true_eq] at is
  exact is.2.symm

@[grind =]
theorem same_self (key : Encoded) : key.same key = decide (key ≠ .null) := by simp [same]

end Encoded

namespace Held
variable {held : Held}

structure Sound (held : Held) : Prop where
  ints : held.ints.Sound
  bytes : held.bytes.Nodup

structure Is (held : Held) (keys : Encoded → Bool) : Prop where
  sound : held.Sound
  holds (key : Encoded) : held.contains key = keys key

theorem Sound.empty : Sound {} := ⟨.empty, .nil⟩

theorem removesBytes : Removes List.Nodup List.contains removeBytes where
  still scratch nodup := nodup.erase scratch
  there _ _ := rfl
  out scratch other nodup := by
    rw [Bool.eq_iff_iff]
    simp [removeBytes, nodup.mem_erase_iff, and_comm]

theorem Sound.insert (sound : held.Sound) (fits : key.Fits) :
    (held.insert key).2 = (!held.contains key) ∧
      (held.insert key).1.Is fun other => held.contains other || key.same other := by
  cases key with
  | null => exact ⟨rfl, sound, fun other => (Bool.or_false _).symm⟩
  | int number =>
    obtain ⟨answer, added, holds⟩ := sound.ints.insert fits
    refine ⟨answer, ⟨added, sound.bytes⟩, fun other => ?_⟩
    cases other <;> simp [Held.insert, contains, Encoded.same, holds, eq_comm]
  | bytes scratch =>
    rw [Held.insert]
    split
    · rename_i there
      exact ⟨by rw [contains, there]; rfl, sound, fun other => by grind [contains]⟩
    rename_i new
    refine ⟨by simpa [contains] using new, ⟨sound.ints, nodup_cons.mpr ⟨by simpa using new, sound.bytes⟩⟩,
      fun other => ?_⟩
    cases other <;> simp [contains, Encoded.same, eq_comm, Bool.or_comm]

theorem Sound.remove (sound : held.Sound) (key : Encoded) :
    (held.remove key).2 = held.contains key ∧
      (held.remove key).1.Is fun other => held.contains other && !key.same other := by
  cases key with
  | null => exact ⟨rfl, sound, fun other => (Bool.and_true _).symm⟩
  | int number =>
    obtain ⟨answer, out, holds⟩ := sound.ints.remove number
    refine ⟨answer, ⟨out, sound.bytes⟩, fun other => ?_⟩
    cases other <;> simp [Held.remove, contains, Encoded.same, holds, eq_comm]
  | bytes scratch =>
    refine ⟨rfl, ⟨sound.ints, removesBytes.still scratch sound.bytes⟩, fun other => ?_⟩
    cases other with
    | bytes other =>
      refine (removesBytes.out scratch other sound.bytes).trans ?_
      simp [contains, Encoded.same, eq_comm]
    | _ => simp [Held.remove, contains, Encoded.same]

theorem Sound.of_len (sound : held.Sound) (none_ : held.len = 0) (key : Encoded) : held.contains key = false := by
  obtain ⟨ints, bytes⟩ := Nat.add_eq_zero_iff.mp none_
  cases key with
  | null => rfl
  | int number => exact sound.ints.len_eq_zero.mp ints number
  | bytes scratch => simp [contains, length_eq_zero_iff.mp bytes]

theorem empty_ne_true : ¬Held.contains {} key = true :=
  Bool.eq_false_iff.mp (Sound.empty.of_len rfl key)

def listed (ints : List Int) (bytes : List (List UInt8)) : Encoded → Bool
  | .null => false
  | .int number => number ∈ ints
  | .bytes scratch => scratch ∈ bytes

section
variable (sound : held.Sound)
include sound

theorem Sound.pick (ints : List Int) (bytes : List (List UInt8)) :
    Is { ints := (pick Ints.remove held.ints ints).1, bytes := (pick removeBytes held.bytes bytes).1 }
      fun key => held.contains key && !listed ints bytes key := by
  obtain ⟨left_ints, out_ints, -⟩ := Ints.removes.pick sound.ints ints
  obtain ⟨left_bytes, out_bytes, -⟩ := removesBytes.pick sound.bytes bytes
  refine ⟨⟨left_ints, left_bytes⟩, fun key => ?_⟩
  cases key with
  | null => rfl
  | int number => rw [contains, out_ints, listed, contains, decide_not]
  | bytes scratch => exact (out_bytes scratch).trans (by simp [listed, contains])

theorem Sound.listed_keys (key : Encoded) : listed held.ints.keys held.bytes key = held.contains key := by
  cases key with
  | null => rfl
  | int number => rw [listed, contains, Bool.eq_iff_iff, decide_eq_true_iff, sound.ints.mem_keys]
  | bytes scratch => simp [listed, contains]

theorem Sound.forget (good : other.Sound) :
    (held.forget other).Is fun key => held.contains key && !other.contains key := by
  obtain ⟨left, out⟩ := sound.pick other.ints.keys other.bytes
  exact ⟨left, fun key => by rw [← good.listed_keys]; exact out key⟩

theorem Sound.take (good : other.Sound) (own : Bool) :
    (held.take own other).Is fun key => held.contains key || other.contains key := by
  obtain ⟨taken, holds⟩ : (if own then held.ints.take other.ints else held.ints.add other.ints).Is fun key =>
      held.ints.contains key || other.ints.contains key := by
    split
    · exact sound.ints.take good.ints
    · exact sound.ints.add good.ints
  refine ⟨⟨taken, sound.bytes.union _⟩, fun key => ?_⟩
  cases key with
  | null => rfl
  | int number => exact holds number
  | bytes scratch => rw [Bool.eq_iff_iff]; simp [Held.take, contains, or_comm]

end

end Held

def Apart : List Run → Prop
  | [] => True
  | run :: older => run.held.Sound ∧ (∀ key, run.held.contains key = true → covers older key = false) ∧ Apart older

@[mk_iff]
structure Parts (runs : List Run) (keys : Encoded → Bool) : Prop where
  apart : Apart runs
  covered (key : Encoded) : covers runs key = keys key

section Apart
@[grind =]
theorem covers_cons (key : Encoded) : covers (run :: older) key = (run.held.contains key || covers older key) := rfl

theorem Apart.sound (apart : Apart runs) (member : run ∈ runs) : run.held.Sound := by
  induction runs with
  | nil => cases member
  | cons first older ih =>
    rcases mem_cons.mp member with rfl | behind
    · exact apart.1
    · exact ih apart.2.2 behind

theorem Apart.pairwise (apart : Apart runs) : runs.Pairwise fun one other =>
    ∀ key, ¬(one.held.contains key = true ∧ other.held.contains key = true) := by
  induction runs with
  | nil => exact .nil
  | cons run older ih =>
    refine pairwise_cons.mpr ⟨fun other member key both => ?_, ih apart.2.2⟩
    exact any_eq_false.mp (apart.2.1 key both.1) other member both.2

/-- Who else holds the runs does not matter. -/
theorem Apart.alike (apart : Apart runs) (same : others.map Run.held = runs.map Run.held) :
    Parts others (covers runs) := by
  induction runs generalizing others with
  | nil =>
    rw [map_eq_nil_iff.mp same]
    exact ⟨trivial, fun _ => rfl⟩
  | cons run older ih =>
    obtain ⟨other, rest, rfl, held, behind⟩ := map_eq_cons_iff.mp same
    obtain ⟨still, covered⟩ := ih apart.2.2 behind
    refine ⟨⟨held ▸ apart.1, fun key there => ?_, still⟩, fun key => by rw [covers_cons, covers_cons, held, covered]⟩
    rw [covered, apart.2.1 key (held ▸ there)]

theorem Apart.take (apart : Apart (last :: before :: older)) :
    Parts (before.take last :: older) (covers (last :: before :: older)) := by
  obtain ⟨sound, apart_last, sound_before, apart_before, rest⟩ := apart
  obtain ⟨taken, holds⟩ := sound_before.take sound last.own
  have holds : ∀ key, (before.take last).held.contains key = (before.held.contains key || last.held.contains key) :=
    holds
  exact ⟨⟨taken, by grind, rest⟩, by grind⟩

theorem Apart.foldLast (apart : Apart (last :: older)) : Parts (foldLast last older) (covers (last :: older)) := by
  induction older generalizing last with
  | nil => exact ⟨apart, fun _ => rfl⟩
  | cons before older ih =>
    rw [Catalog.foldLast]
    split
    · obtain ⟨still, covered⟩ := ih apart.take.1
      exact ⟨still, fun key => (covered key).trans (apart.take.2 key)⟩
    · exact ⟨apart, fun _ => rfl⟩

theorem Apart.takeOut (apart : Apart runs) (key : Encoded) :
    (takeOut key runs = none → covers runs key = false) ∧ ∀ left shared, Catalog.takeOut key runs = some (left, shared) →
      covers runs key = true ∧ (shared = false → Parts left fun other => covers runs other && !key.same other) := by
  induction runs with
  | nil => exact ⟨fun _ => rfl, by rintro _ _ ⟨⟩⟩
  | cons run older ih =>
    obtain ⟨sound, off, rest⟩ := apart
    obtain ⟨absent, present⟩ := ih rest
    obtain ⟨-, still, out_of⟩ := sound.remove key
    rw [Catalog.takeOut]
    cases found : Catalog.takeOut key older with
    | some out =>
      refine ⟨by rintro ⟨⟩, ?_⟩
      rintro left shared ⟨⟩
      have := present out.1 out.2 found
      grind [Apart, parts_iff]
    | none =>
      have := absent found
      grind [Apart, parts_iff]

end Apart

namespace Seen
variable {seen : Seen} {key : Encoded}

/-- The runs share no key, and the keys taken out of them are theirs. -/
structure Sound (seen : Seen) : Prop where
  runs : Apart seen.runs
  gone : seen.gone.Sound
  hidden (key : Encoded) : seen.gone.contains key = true → covers seen.runs key = true

structure Is (seen : Seen) (keys : Encoded → Bool) : Prop where
  sound : seen.Sound
  holds (key : Encoded) : seen.contains key = keys key

/-- A set made from one by adding keys: its last run is its own, and no more keys are gone. -/
structure Ready (first seen : Seen) : Prop extends Sound seen where
  opened : ∃ last older, seen.runs = last :: older ∧ last.own = true
  fewer (key : Encoded) : seen.gone.contains key = true → first.gone.contains key = true

theorem Sound.empty : Sound {} := ⟨trivial, .empty, fun _ there => (Held.empty_ne_true there).elim⟩

/-- Runs that hold the same keys apart make the same set. -/
theorem Sound.refolded (sound : seen.Sound) {runs : List Run} (parts : Parts runs (covers seen.runs)) :
    Is { seen with runs := runs } seen.contains :=
  ⟨⟨parts.apart, sound.gone, fun key there => (parts.covered key).trans (sound.hidden key there)⟩,
    fun key => congrArg (· && _) (parts.covered key)⟩

theorem Sound.open' (sound : seen.Sound) : Ready seen seen.open' ∧ seen.open'.contains = seen.contains := by
  obtain ⟨runs, gone⟩ := seen
  obtain ⟨fresh, same⟩ : Is ⟨{} :: runs, gone⟩ (Seen.contains ⟨runs, gone⟩) := sound.refolded
    ⟨⟨.empty, fun key there => (Held.empty_ne_true there).elim, sound.runs⟩, fun key => by
      rw [covers_cons, Bool.eq_false_iff.mpr Held.empty_ne_true, Bool.false_or]⟩
  have opened : Ready ⟨runs, gone⟩ ⟨{} :: runs, gone⟩ := ⟨fresh, ⟨_, _, rfl, rfl⟩, fun _ there => there⟩
  cases runs with
  | nil => exact ⟨opened, funext same⟩
  | cons last older =>
    simp only [Seen.open']
    split
    · rename_i own
      exact ⟨⟨sound, ⟨_, _, rfl, own⟩, fun _ there => there⟩, rfl⟩
    · exact ⟨opened, funext same⟩

/-- Adding a key is a plain set's, whether it is given back or new to the last run. -/
theorem adds (first : Seen) : Adds (Ready first) Encoded.Fits contains Encoded.same insert := by
  suffices each : ∀ {seen key}, Ready first seen → key.Fits → Ready first (seen.insert key).1 ∧
      (seen.insert key).2 = !seen.contains key ∧
      ∀ other, (seen.insert key).1.contains other = (seen.contains other || key.same other) by
    refine ⟨fun ready fits => (each ready fits).1, fun {seen key} ready fits => ?_⟩
    obtain ⟨-, answer, holds⟩ := each ready fits
    rw [plainAdd_eq fun other is => by rw [Encoded.eq_of_same is], answer, funext holds]
  intro seen key ready fits
  obtain ⟨last, older, runs, own⟩ := ready.opened
  obtain ⟨was, left, out⟩ := ready.gone.remove key
  obtain ⟨sound, off, rest⟩ : Apart (last :: older) := runs ▸ ready.runs
  obtain ⟨answer, added, holds⟩ := sound.insert fits
  have hidden := ready.hidden
  have fewer := ready.fewer
  rw [insert, was]
  cases gone : seen.gone.contains key with
  | true =>
    refine ⟨⟨⟨ready.runs, left, ?_⟩, ⟨_, _, runs, own⟩, ?_⟩, ?_, fun other => ?_⟩
    all_goals grind [contains]
  | false =>
    simp only [Bool.false_eq_true, if_false, runs]
    split
    · exact ⟨ready, by grind [contains], by grind [contains]⟩
    · refine ⟨⟨⟨⟨added, ?_, rest⟩, ready.gone, ?_⟩, ⟨_, _, rfl, own⟩, fewer⟩, ?_, fun other => ?_⟩
      all_goals grind [contains]

/-- A block of integers is added as its keys one by one. -/
theorem Ready.insertAll {first : Seen} (ready : Ready first seen) {keys : List Int} (small : ∀ key ∈ keys, I64 key) :
    Ready first (seen.insertAll keys).1 ∧ ((seen.insertAll keys).1.contains, (seen.insertAll keys).2) =
        feed (plainAdd Encoded.same) seen.contains (keys.map .int) := by
  have fit : ∀ key ∈ keys.map Encoded.int, key.Fits := by simpa [Encoded.Fits] using small
  unfold Seen.insertAll
  split
  · exact (adds first).feed ready fit
  rename_i none_
  obtain ⟨last, older, runs, own⟩ := ready.opened
  obtain ⟨sound, off, rest⟩ : Apart (last :: older) := runs ▸ ready.runs
  have kept : ∀ number, seen.gone.contains (.int number) = false :=
    ready.gone.ints.len_eq_zero.mp (not_not.mp none_)
  have stop : (older.filterMap (·.held.ints.firstHeld keys)).min? = keys.findIdx? (covers older <| .int ·) := by
    rw [filterMap_congr fun run member => (rest.sound member).ints.firstHeld_eq keys]
    exact min?_findIdx? (fun run : Run => run.held.ints.contains) older keys
  obtain ⟨reached, ⟨good, same⟩, fed⟩ := @Ints.Sound.insertAll _ sound.ints
    (keys.take ((keys.findIdx? (covers older <| .int ·)).getD keys.length)) fun key member =>
      small key (mem_of_mem_take member)
  let into (ints : Ints) : Seen :=
    { seen with runs := { last with held := { last.held with ints := ints } } :: older }
  have through (ints : Ints) (number : Int) : insert (into ints) (.int number) =
      (into (if covers older (.int number) then (ints, false) else ints.insert number).1,
        (if covers older (.int number) then (ints, false) else ints.insert number).2) := by
    rw [insert, (ready.gone.remove _).1, kept]
    simp only [Bool.false_eq_true, if_false, into]
    split <;> rfl
  have one_by_one := feed_through through reached keys
  rw [feed_unless, ← fed] at one_by_one
  have holds : ∀ key, Held.contains { last.held with ints := reached } key = last.held.contains key := by
    rintro (_ | number | _)
    exacts [rfl, same number, rfl]
  obtain ⟨still, kept⟩ : Is (into reached) seen.contains := ready.refolded
    ⟨⟨⟨good, sound.bytes⟩, fun key there => off key ((holds key).symm.trans there), rest⟩, fun key => by
      rw [runs, covers_cons, covers_cons, holds]⟩
  have all := (adds first).feed ⟨still, ⟨_, _, rfl, own⟩, ready.fewer⟩ fit
  rw [one_by_one, funext kept] at all
  simpa only [runs, stop] using all

theorem Sound.fold (sound : seen.Sound) : seen.fold.Is seen.contains := by
  unfold Seen.fold
  split
  · rename_i last older runs
    exact sound.refolded (runs ▸ Apart.foldLast (runs ▸ sound.runs))
  · exact ⟨sound, fun _ => rfl⟩

theorem fold_gone : seen.fold.gone = seen.gone := by
  unfold Seen.fold
  split <;> rfl

section
variable (sound : seen.Sound)
include sound

theorem Sound.absorb (fits : ∀ key ∈ chunk.keys, key.Fits) : (seen.absorb chunk).1.Sound ∧
      (∀ key, (seen.absorb chunk).1.gone.contains key = true → seen.gone.contains key = true) ∧
      ((seen.absorb chunk).1.contains, (seen.absorb chunk).2) =
        feed (plainAdd Encoded.same) seen.contains chunk.keys := by
  obtain ⟨ready, same⟩ := sound.open'
  have fed : Ready seen (seen.open'.insertChunk chunk).1 ∧
      ((seen.open'.insertChunk chunk).1.contains, (seen.open'.insertChunk chunk).2) =
        feed (plainAdd Encoded.same) seen.contains chunk.keys := by
    rw [← same]
    cases chunk with
    | block keys => exact ready.insertAll (by simpa [Chunk.keys, Encoded.Fits] using fits)
    | rows keys => exact (adds seen).feed ready fits
  unfold Seen.absorb
  dsimp only
  split
  · exact ⟨fed.1.toSound, fed.1.fewer, fed.2⟩
  rename_i free
  obtain ⟨folded, kept⟩ := fed.1.toSound.fold
  exact ⟨folded, fun key there => fed.1.fewer key (fold_gone ▸ there), by
    rw [funext kept, ← fed.2, Option.not_isSome_iff_eq_none.mp free]⟩

theorem Sound.absorbAll (fits : ∀ key ∈ chunks.flatMap Chunk.keys, key.Fits) :
    ((∃ added, seen.absorbAll chunks = .ok added) ↔ (∀ key ∈ chunks.flatMap Chunk.keys, seen.contains key = false) ∧
      (chunks.flatMap Chunk.keys).Pairwise fun key other => key.same other = false) ∧
    ∀ added, seen.absorbAll chunks = .ok added →
      (∀ key, added.gone.contains key = true → seen.gone.contains key = true) ∧
      added.Is fun key => seen.contains key || (chunks.flatMap Chunk.keys).any (·.same key) := by
  induction chunks generalizing seen with
  | nil =>
    refine ⟨by simp [Seen.absorbAll], ?_⟩
    rintro added ⟨⟩
    exact ⟨fun _ there => there, sound, fun key => (Bool.or_false _).symm⟩
  | cons chunk chunks ih =>
    rw [flatMap_cons] at fits ⊢
    obtain ⟨absorbed, fewer, fed⟩ := sound.absorb fun key member => fits key (mem_append_left _ member)
    have free := @feed_eq_none _ Encoded.same seen.contains chunk.keys
    have holds := @feed_all _ Encoded.same seen.contains chunk.keys
    rw [← fed] at free holds
    rw [Seen.absorbAll]
    cases is : seen.absorb chunk with
    | mk next stop =>
      rw [is] at absorbed fewer free holds
      dsimp only at absorbed fewer free holds
      cases stop with
      | some row =>
        refine ⟨⟨by rintro ⟨_, ⟨⟩⟩, fun clear => ?_⟩, by rintro _ ⟨⟩⟩
        have := free.mpr ⟨fun key member => clear.1 key (mem_append_left _ member), (pairwise_append.mp clear.2).1⟩
        cases this
      | none =>
        obtain ⟨old, apart⟩ := free.mp rfl
        obtain ⟨ok, gives⟩ := ih absorbed fun key member => fits key (mem_append_right _ member)
        refine ⟨ok.trans ?_, fun added given => ?_⟩
        · simp only [holds rfl, Bool.or_eq_false_iff, any_eq_false, pairwise_append, forall_mem_append]
          grind
        · obtain ⟨less, good, holds'⟩ := gives added given
          exact ⟨fun key there => fewer key (less key there), good, fun key => by
            rw [holds', holds rfl, any_append, Bool.or_assoc]⟩

theorem Sound.firstHeld (keys : List Int) : seen.firstHeld keys = keys.findIdx? (seen.contains <| .int ·) := by
  unfold Seen.firstHeld
  split
  · rfl
  rename_i none_
  have kept : ∀ number, seen.gone.contains (.int number) = false := sound.gone.ints.len_eq_zero.mp (not_not.mp none_)
  rw [filterMap_congr fun run member => (sound.runs.sound member).ints.firstHeld_eq keys,
    min?_findIdx? (fun run : Run => run.held.ints.contains)]
  exact congrArg (keys.findIdx? ·) (funext fun number => by rw [contains, kept, Bool.not_false, Bool.and_true]; rfl)

theorem Sound.check (fits : ∀ key ∈ chunks.flatMap Chunk.keys, key.Fits) :
    ((∃ added, seen.check chunks = .ok added) ↔ (∀ key ∈ chunks.flatMap Chunk.keys, seen.contains key = false) ∧
      (chunks.flatMap Chunk.keys).Pairwise fun key other => key.same other = false) ∧
    ∀ added, seen.check chunks = .ok added → of chunks = .ok added := by
  have held (chunk : Chunk) : seen.firstIn chunk = none ↔ ∀ key ∈ chunk.keys, seen.contains key = false := by
    cases chunk with
    | block keys => simp [firstIn, sound.firstHeld, Chunk.keys]
    | rows keys => simp [firstIn, Chunk.keys]
  have none_ (key : Encoded) : Seen.contains {} key = false := rfl
  have all := (Sound.empty.absorbAll fits).1
  unfold Seen.check
  split
  · rename_i row found
    obtain ⟨chunk, member, here⟩ := exists_of_findSome?_eq_some found
    refine ⟨⟨by rintro ⟨_, ⟨⟩⟩, fun clear => ?_⟩, by rintro _ ⟨⟩⟩
    rw [(held chunk).mpr fun key there => clear.1 key (mem_flatMap.mpr ⟨chunk, member, there⟩)] at here
    cases here
  rename_i free
  refine ⟨?_, fun added given => given⟩
  rw [findSome?_eq_none_iff] at free
  rw [of, all]
  refine and_congr_left fun _ => ⟨fun _ key there => ?_, fun _ key _ => none_ key⟩
  obtain ⟨chunk, member, inside⟩ := mem_flatMap.mp there
  exact (held chunk).mp (free chunk member) key inside

/-- A key that is held is taken out of its run, or hidden in it. -/
theorem Sound.remove (fits : key.Fits) (held : key ≠ .null → seen.contains key = true) :
    (seen.remove key).Is fun other => seen.contains other && !key.same other := by
  obtain ⟨absent, present⟩ := sound.runs.takeOut key
  have hidden := sound.hidden
  unfold Seen.remove
  split
  · exact ⟨sound, by grind [contains]⟩
  · rename_i runs taken
    obtain ⟨-, out⟩ := present _ _ taken
    obtain ⟨apart, covered⟩ := out rfl
    refine ⟨⟨apart, sound.gone, ?_⟩, ?_⟩
    all_goals grind [contains]
  obtain ⟨-, added, holds⟩ := sound.gone.insert fits
  refine ⟨⟨sound.runs, added, ?_⟩, ?_⟩
  all_goals grind [contains]

theorem Sound.forget (fits : ∀ key ∈ chunk.keys, key.Fits)
    (held : ∀ key ∈ chunk.keys, key ≠ .null → seen.contains key = true)
    (once : chunk.keys.Pairwise fun key other => key.same other = false) :
    (seen.forget chunk).Is fun other => seen.contains other && !chunk.keys.any (·.same other) := by
  unfold Seen.forget
  generalize chunk.keys = keys at *
  induction keys generalizing seen with
  | nil => exact ⟨sound, fun other => (Bool.and_true _).symm⟩
  | cons key keys ih =>
    obtain ⟨apart, once⟩ := pairwise_cons.mp once
    obtain ⟨out, left⟩ := sound.remove (fits key mem_cons_self) (held key mem_cons_self)
    obtain ⟨all, none_⟩ := ih out (fun key member => fits key (mem_cons_of_mem _ member)) (fun other member some_ => by
      rw [left, apart other member, held other (mem_cons_of_mem _ member) some_]; rfl) once
    exact ⟨all, fun other => by rw [foldl_cons, none_, left, any_cons, Bool.not_or, Bool.and_assoc]⟩

theorem Sound.settle : seen.settle.Is seen.contains := by
  have taken (rest : List Run) (first : Run) (good : ∀ run ∈ first :: rest, run.held.Sound) :
      (rest.foldl Run.take first).held.Is (covers (first :: rest)) := by
    induction rest generalizing first with
    | nil => exact ⟨good first mem_cons_self, fun key => (Bool.or_false _).symm⟩
    | cons run rest ih =>
      obtain ⟨sound_first, sound_run, sound_rest⟩ := by simpa using good
      obtain ⟨both, holds⟩ := sound_first.take sound_run run.own
      have holds : ∀ key, (first.take run).held.contains key = (first.held.contains key || run.held.contains key) :=
        holds
      obtain ⟨all, covered⟩ := ih (first.take run) (forall_mem_cons.mpr ⟨both, sound_rest⟩)
      exact ⟨all, by grind⟩
  unfold Seen.settle
  split
  · exact ⟨sound, fun _ => rfl⟩
  rename_i first rest reversed
  split
  · exact ⟨sound, fun _ => rfl⟩
  obtain ⟨all, covered⟩ := taken rest first fun run member =>
    sound.runs.sound (mem_reverse.mp (reversed ▸ member))
  obtain ⟨left, out⟩ := all.forget sound.gone
  refine ⟨⟨⟨left, fun _ _ => rfl, trivial⟩, .empty, fun _ there => (Held.empty_ne_true there).elim⟩, fun key => ?_⟩
  rw [contains, Bool.eq_false_iff.mpr Held.empty_ne_true, covers_cons, out, covered, ← reversed, covers, any_reverse]
  exact (Bool.and_true _).trans (Bool.or_false _)

/-- The keys of a run that were gone are no longer gone, and no longer the run's. -/
theorem Sound.giveBack (good : run.held.Sound) : (seen.giveBack run).1.runs = seen.runs ∧
      ((seen.giveBack run).1.gone.Is fun key => seen.gone.contains key && !run.held.contains key) ∧
      (seen.giveBack run).2.held.Is fun key => run.held.contains key && !seen.gone.contains key := by
  unfold Seen.giveBack
  split
  · obtain ⟨left, out⟩ := good.pick seen.gone.ints.keys seen.gone.bytes
    obtain ⟨back, kept⟩ := sound.gone.pick (pick Ints.remove run.held.ints seen.gone.ints.keys).2
      (pick Held.removeBytes run.held.bytes seen.gone.bytes).2
    refine ⟨rfl, ⟨back, fun key => (kept key).trans ?_⟩, left,
      fun key => by rw [← sound.gone.listed_keys]; exact out key⟩
    cases key with
    | null => rfl
    | int number =>
      have := (Ints.removes.pick good.ints seen.gone.ints.keys).2.2 number
      grind [Held.listed, Held.contains, sound.gone.ints.mem_keys]
    | bytes scratch =>
      have := (Held.removesBytes.pick good.bytes seen.gone.bytes).2.2 scratch
      grind [Held.listed, Held.contains]
  · rename_i none_
    have := sound.gone.of_len (Nat.eq_zero_of_not_pos none_)
    exact ⟨rfl, ⟨sound.gone, by grind⟩, good, by grind⟩

end

theorem addRun_apart (apart : Apart (run :: seen.runs)) : (seen.addRun run).gone = seen.gone ∧
    Parts (seen.addRun run).runs (covers (run :: seen.runs)) := by
  unfold Seen.addRun
  cases order : seen.runs with
  | nil => exact ⟨rfl, by simpa only [order] using apart, fun _ => rfl⟩
  | cons last older =>
    rw [order] at apart
    dsimp only
    split
    · obtain ⟨folded, same⟩ := apart.take.1.foldLast
      exact ⟨rfl, folded, fun key => (same key).trans (apart.take.2 key)⟩
    · exact ⟨rfl, apart.foldLast⟩

/-- A run of new keys is added, each to the run that hides it or behind the others. -/
theorem Sound.extendRun (sound : seen.Sound) (good : run.held.Sound)
    (new : ∀ key, run.held.contains key = true → seen.contains key = false) :
    (seen.extendRun run).Is fun key => seen.contains key || run.held.contains key := by
  obtain ⟨runs, ⟨gone, hidden⟩, sound_run, fresh⟩ := sound.giveBack good
  have apart : Apart ((seen.giveBack run).2 :: (seen.giveBack run).1.runs) :=
    ⟨sound_run, by grind [contains], runs ▸ sound.runs⟩
  obtain ⟨still, after, covered⟩ := addRun_apart apart
  have under := sound.hidden
  refine ⟨⟨after, still ▸ gone, ?_⟩, ?_⟩
  all_goals grind [contains, Seen.extendRun]

theorem Sound.extend (sound : seen.Sound) (good : added.Sound)
    (kept : ∀ key, added.gone.contains key = false)
    (new : ∀ key, added.contains key = true → seen.contains key = false) :
    (seen.extend added).Is fun key => seen.contains key || added.contains key := by
  have whole (key : Encoded) : added.contains key = covers added.runs key := by
    rw [contains, kept, Bool.not_false, Bool.and_true]
  have each (runs : List Run) (apart : Apart runs) (new : ∀ key, covers runs key = true → seen.contains key = false) :
      (runs.foldr (fun run seen => seen.extendRun run) seen).Is fun key => seen.contains key || covers runs key := by
    induction runs with
    | nil => exact ⟨sound, fun key => (Bool.or_false _).symm⟩
    | cons run older ih =>
      obtain ⟨sound_run, off, rest⟩ := apart
      obtain ⟨before, holds⟩ := ih rest (by grind)
      obtain ⟨after, all⟩ := before.extendRun sound_run (by grind)
      exact ⟨after, by grind⟩
  unfold Seen.extend
  split
  · rename_i empty
    have none_ (key : Encoded) : seen.contains key = false := by
      rw [contains, Bool.and_eq_false_iff, covers, any_eq_false]
      refine .inl fun run member => Bool.eq_false_iff.mp ((sound.runs.sound member).of_len ?_ key)
      simpa using all_eq_true.mp empty run member
    exact ⟨good, fun key => by rw [none_, Bool.false_or]⟩
  · rw [foldl_reverse]
    obtain ⟨all, holds⟩ := each added.runs good.runs fun key there => new key ((whole key).trans there)
    exact ⟨all, fun key => by rw [holds, whole]⟩

end Seen

/-- What a bitmap should hold, as a plain set, for every way to make one. -/
inductive Ints.Made : Ints → (Int → Bool) → Prop
  | empty : Made {} fun _ => false
  | insert {ints held key} : Made ints held → I64 key →
    Made (ints.insert key).1 fun other => held other || decide (other = key)
  | insertAll {ints held keys} : Made ints held → (∀ key ∈ keys, I64 key) →
    Made (ints.insertAll keys).1 (feed (plainAdd fun key other => decide (other = key)) held keys).1
  | remove {ints held key} : Made ints held →
    Made (ints.remove key).1 fun other => held other && decide (other ≠ key)
  | add {ints other held more} : Made ints held → Made other more →
    Made (ints.add other) fun key => held key || more key
  | reach {ints held low high adding} : Made ints held → I64 low → I64 high → low ≤ high →
    Made (ints.reach low high adding) held

theorem Ints.Sound.fed {ints : Ints} (sound : ints.Sound) {keys : List Int} (small : ∀ key ∈ keys, I64 key) :
    (ints.insertAll keys).1.Sound ∧ ((ints.insertAll keys).1.contains, (ints.insertAll keys).2) =
      feed (plainAdd fun key other => decide (other = key)) ints.contains keys := by
  obtain ⟨reached, ⟨good, same⟩, fed⟩ := sound.insertAll small
  rw [fed, ← funext same]
  exact Ints.adds.feed good small

theorem Ints.Made.sound (made : Made ints held) : ints.Is held := by
  induction made with
  | empty => exact ⟨.empty, Sound.empty.len_eq_zero.mp rfl⟩
  | insert _ small ih =>
    obtain ⟨-, added, holds⟩ := ih.sound.insert small
    exact ⟨added, fun other => by rw [holds, ih.holds]⟩
  | insertAll _ small ih =>
    obtain ⟨added, fed⟩ := ih.sound.fed small
    rw [funext ih.holds] at fed
    exact ⟨added, congrFun (congrArg Prod.fst fed)⟩
  | remove _ ih =>
    obtain ⟨-, left, holds⟩ := ih.sound.remove _
    exact ⟨left, fun other => by rw [holds, ih.holds]⟩
  | add _ _ ih more =>
    obtain ⟨both, holds⟩ := ih.sound.add more.sound
    exact ⟨both, fun key => by rw [holds, ih.holds, more.holds]⟩
  | reach _ small large le ih =>
    obtain ⟨reached, same⟩ := ih.sound.reach small large le _
    exact ⟨reached, fun key => (same key).trans (ih.holds key)⟩

/-- What is done to one set, and to the keys added to it and not forgotten by it. Who else holds its runs may
change at any time. -/
inductive Step : Seen → (Encoded → Bool) → Seen → (Encoded → Bool) → Prop
  | hold {seen other keys} : other.runs.map Run.held = seen.runs.map Run.held → other.gone = seen.gone →
    Step seen keys other keys
  | absorb {seen keys chunk} : (∀ key ∈ chunk.keys, key.Fits) →
    Step seen keys (seen.absorb chunk).1 (feed (plainAdd Encoded.same) keys chunk.keys).1
  | append {seen added keys chunks} : (∀ key ∈ chunks.flatMap Chunk.keys, key.Fits) → seen.check chunks = .ok added →
    Step seen keys (seen.extend added) fun key => keys key || (chunks.flatMap Chunk.keys).any (·.same key)
  | forget {seen keys chunk} : (∀ key ∈ chunk.keys, key.Fits) → (∀ key ∈ chunk.keys, key ≠ .null → keys key = true) →
    (chunk.keys.Pairwise fun key other => key.same other = false) →
    Step seen keys (seen.forget chunk) fun key => keys key && !chunk.keys.any (·.same key)
  | fold {seen keys} : Step seen keys seen.fold keys
  | settle {seen keys} : Step seen keys seen.settle keys

inductive Grown : List (Seen × (Encoded → Bool)) → Prop
  | start : Grown [({}, fun _ => false)]
  | clone {family entry} : Grown family → entry ∈ family → Grown (family ++ [entry])
  | drop {family} (index : Nat) : Grown family → Grown (family.eraseIdx index)
  | step {family seen keys next after} (index : Nat) : Grown family → family[index]? = some (seen, keys) →
    Step seen keys next after → Grown (family.set index (next, after))

theorem Step.sound {next : Seen} {after : Encoded → Bool} (step : Step seen seen.contains next after)
    (sound : seen.Sound) : next.Is after := by
  cases step with
  | hold same gone =>
    obtain ⟨apart, covered⟩ := sound.runs.alike same
    refine ⟨⟨apart, gone ▸ sound.gone, by rw [gone, funext covered]; exact sound.hidden⟩, fun key => ?_⟩
    rw [Seen.contains, covered, gone]
    rfl
  | absorb fits =>
    obtain ⟨added, -, fed⟩ := sound.absorb fits
    exact ⟨added, congrFun (congrArg Prod.fst fed)⟩
  | append fits passed =>
    obtain ⟨clear, made⟩ := sound.check fits
    obtain ⟨fewer, good, all⟩ := (Seen.Sound.empty.absorbAll fits).2 _ (made _ passed)
    obtain ⟨grown, both⟩ := sound.extend good (fun key => Bool.eq_false_iff.mpr fun there =>
      Held.empty_ne_true (fewer key there)) fun key there => by
        obtain ⟨other, member, is⟩ := any_eq_true.mp ((all key).symm.trans there)
        rw [Encoded.eq_of_same is]
        exact (clear.mp ⟨_, passed⟩).1 other member
    exact ⟨grown, fun key => by rw [both, all]; rfl⟩
  | forget fits held once => exact sound.forget fits held once
  | fold => exact sound.fold
  | settle => exact sound.settle

variable {family : List (Seen × (Encoded → Bool))}

theorem Grown.sound (grown : Grown family) : ∀ entry ∈ family, entry.1.Is entry.2 := by
  induction grown with
  | start =>
    rintro entry member
    rw [mem_singleton.mp member]
    exact ⟨.empty, fun _ => rfl⟩
  | clone _ member ih => exact forall_mem_append.mpr ⟨ih, by simpa using ih _ member⟩
  | drop _ _ ih => exact fun entry member => ih entry (mem_of_mem_eraseIdx member)
  | step index _ at' step ih =>
    intro entry member
    rcases mem_or_eq_of_mem_set member with old | rfl
    · exact ih entry old
    obtain ⟨sound, holds⟩ := ih _ (mem_of_getElem? at')
    dsimp only at sound holds
    obtain rfl := funext holds
    exact step.sound sound

/-- Sets that share their runs hold exactly the keys added and not forgotten, refuse exactly the rows with a key
held or repeated, hold no key in two runs, and have no key gone that no run holds. The bitmap is a plain set. -/
theorem key_sets_exact (grown : Grown family) {ints : Ints} {held : Int → Bool} (made : ints.Made held) :
    (∀ seen keys, (seen, keys) ∈ family → (∀ key, seen.contains key = keys key) ∧
      (∀ chunks : List Chunk, (∀ key ∈ chunks.flatMap Chunk.keys, key.Fits) →
        ((∃ refusal, seen.check chunks = .error refusal) ↔ (∃ key ∈ chunks.flatMap Chunk.keys, keys key = true) ∨
          ¬(chunks.flatMap Chunk.keys).Pairwise fun key other => key.same other = false)) ∧
      (∀ key, seen.gone.contains key = true → ∃ run ∈ seen.runs, run.held.contains key = true) ∧
      seen.runs.Pairwise fun one other => ∀ key, ¬(one.held.contains key = true ∧ other.held.contains key = true)) ∧
    (∀ key, ints.contains key = held key) ∧ (∀ key, (ints.remove key).2 = held key) ∧
    (∀ key, I64 key → (ints.insert key).2 = !held key) ∧ ∀ keys, (∀ key ∈ keys, I64 key) →
      (ints.insertAll keys).2 = (feed (plainAdd fun key other => decide (other = key)) held keys).2 := by
  obtain ⟨sound_ints, held_ints⟩ := made.sound
  obtain rfl := funext held_ints
  refine ⟨fun seen keys member => ?_, fun _ => rfl, fun key => (sound_ints.remove key).1,
    fun key small => (sound_ints.insert small).1, fun keys small => congrArg Prod.snd (sound_ints.fed small).2⟩
  obtain ⟨sound, holds⟩ : seen.Is keys := grown.sound _ member
  obtain rfl := funext holds
  refine ⟨fun _ => rfl, fun chunks fits => ?_, fun key there => any_eq_true.mp (sound.hidden key there),
    sound.runs.pairwise⟩
  have passes := (sound.check fits).1
  cases is : seen.check chunks with
  | ok added => grind
  | error refusal => grind

/-- A set that shares its run with a copy. -/
def shared : Seen where
  runs := (Seen.absorb {} (.block [1, 2])).1.runs.map fun run => { run with own := false }

/-- The copy keeps the key that the set forgets, adds again and so takes back from those gone. -/
theorem key_sets_exact_copied :
    let forgot := shared.forget (.rows [.int 1])
    let back := (forgot.absorb (.rows [.int 1])).1
    (Seen.absorb {} (.block [1, 2])).1.contains (.int 1) = true ∧
      forgot.contains (.int 1) = false ∧ forgot.gone.contains (.int 1) = true ∧
      back.contains (.int 1) = true ∧ back.gone.contains (.int 1) = false ∧
      ((({} : Ints).insertAll [5, 7]).1.remove 5).2 = true := by
  have fits : ∀ key ∈ (Chunk.block [1, 2]).keys, key.Fits := by simp [Chunk.keys, Encoded.Fits, I64]
  have one : ∀ key ∈ (Chunk.rows [.int 1]).keys, key.Fits := by simp [Chunk.keys, Encoded.Fits, I64]
  have small : ∀ key ∈ ([5, 7] : List Int), I64 key := by simp [I64]
  have held := Grown.step 0 (.clone (.step 0 .start rfl (.absorb fits)) (mem_singleton.mpr rfl)) rfl
    (.hold (rfl : shared.runs.map Run.held = _) rfl)
  have forgot := Grown.step 0 held rfl (.forget one (by decide) (by decide))
  have back := Grown.step 0 forgot rfl (.absorb one)
  have exact := key_sets_exact back (.insertAll .empty small)
  refine ⟨(exact.1 _ _ (mem_cons_of_mem _ mem_cons_self)).1 _, ?_, by decide, (exact.1 _ _ mem_cons_self).1 _,
    by decide, exact.2.2.1 5⟩
  exact ((key_sets_exact forgot .empty).1 _ _ mem_cons_self).1 _

end Rudb.Catalog
