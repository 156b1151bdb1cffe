import Rudb.Storage.Handoff

/-! Handoff of a row lock is exclusive and loses no waiter, in every state the
atomic steps of `claim`, `wait` and `release` can reach. -/
namespace Rudb.HandoffProofs
open Rudb Park Handoff Option List

variable {key : Nat} {m : Machine} {txn : TxnId} {pc was : Pc} {queue : List Parked}
  {bucket : Option TxnId} {word : LockWord} {more : Bool}
  {oldest : Option (Nat × TxnId)}

def parkedIds (key : Nat) (queue : List Parked) : List TxnId :=
  queue.filterMap fun parked => if parked.key = key then some parked.me else none

theorem mem_parkedIds : txn ∈ parkedIds key queue ↔ ∃ granted, ⟨key, txn, granted⟩ ∈ queue := by
  simp only [parkedIds, mem_filterMap, ite_none_right_eq_some, some.injEq]
  constructor
  · rintro ⟨⟨_, _, granted⟩, member, rfl, rfl⟩
    exact ⟨granted, member⟩
  · rintro ⟨granted, member⟩
    exact ⟨_, member, rfl, rfl⟩

/-- What a transaction read or found earlier and still relies on. -/
def Sound (key : Nat) (queue : List Parked) : Pc → Prop
  | .claiming _ word => word.holder = none
  | .taking word => word.holder = none
  | .releasing word => word.waiters = false
  | .scanned oldest more => scan key queue 0 none false = (oldest, more)
  | .clearing => parkedIds key queue = []
  | _ => True

/-- How a transaction at `pc` agrees with the word, the queue and the bucket. -/
structure Fits (key : Nat) (word : LockWord) (queue : List Parked) (bucket : Option TxnId)
    (txn : TxnId) (pc : Pc) : Prop where
  bucket : bucket = some txn ↔ pc.inBucket = true
  owner : pc.believes = true → word.holder = some txn
  owned : word.holder = some txn → pc.believes = true ∨ ⟨key, txn, true⟩ ∈ queue
  queued : txn ∈ parkedIds key queue ↔ pc.isQueued = true
  granted : ⟨key, txn, true⟩ ∈ queue → word.holder = some txn
  awaited : ⟨key, txn, false⟩ ∈ queue → word.holder ≠ none ∧ word.waiters = true
  sound : Sound key queue pc

/-- Every transaction agrees with the shared state and is parked at most once. -/
structure Inv (key : Nat) (m : Machine) : Prop where
  each : ∀ txn, Fits key m.word m.queue m.bucket txn (m.pc txn)
  once : (parkedIds key m.queue).Nodup

theorem absent_of_empty (empty : parkedIds key queue = []) : (⟨key, txn, mark⟩ : Parked) ∉ queue := by
  intro member
  have parked := mem_parkedIds.mpr ⟨mark, member⟩
  rw [empty] at parked
  contradiction

theorem empty_of_absent (absent : ∀ txn mark, (⟨key, txn, mark⟩ : Parked) ∉ queue) : parkedIds key queue = [] := by
  apply eq_nil_iff_forall_not_mem.mpr
  intro txn member
  obtain ⟨mark, member⟩ := mem_parkedIds.mp member
  exact absent txn mark member

/-- On a row without entries only the word tells who has it. -/
theorem fits_empty (empty : parkedIds key queue = []) (locked : bucket = some txn ↔ pc.inBucket = true)
    (holds : pc.believes = true ↔ word.holder = some txn) (out : pc.isQueued = false) (sound : Sound key queue pc) :
    Fits key word queue bucket txn pc where
  bucket := locked
  owner := holds.mp
  owned named := .inl (holds.mpr named)
  queued := by simp [empty, out]
  granted member := absurd member (absent_of_empty empty)
  awaited member := absurd member (absent_of_empty empty)
  sound := sound

theorem initial_inv (start : Initial key m) : Inv key m := by
  obtain ⟨free, quiet, others, unlocked, idle⟩ := start
  have empty : parkedIds key m.queue = [] :=
    empty_of_absent fun txn mark member => others _ member rfl
  refine ⟨fun txn => ?_, by simp [empty]⟩
  rw [idle]
  exact fits_empty empty (by simp [unlocked, Pc.inBucket]) (by simp [Pc.believes, free]) rfl trivial

/-- A step of `txn` keeps the invariant when `txn` agrees with the new state at
its new place and the others still agree with it at theirs. -/
theorem inv_goto_of (once : (parkedIds key m.queue).Nodup) (self : Fits key m.word m.queue m.bucket txn pc)
    (others : ∀ u, u ≠ txn → Fits key m.word m.queue m.bucket u (m.pc u)) : Inv key (m.goto txn pc) := by
  refine ⟨fun u => ?_, once⟩
  by_cases here : u = txn
  · rw [here]
    simpa [Machine.goto] using self
  · simpa [Machine.goto, here] using others u here

/-- A free row has no entries: whoever is parked waits for a holder or was handed
the row. -/
theorem Inv.free_empty (inv : Inv key m) (free : m.word.holder = none) : parkedIds key m.queue = [] := by
  apply empty_of_absent
  intro txn mark member
  cases mark with
  | false => exact ((inv.each txn).awaited member).1 free
  | true =>
    have named := (inv.each txn).granted member
    rw [free] at named
    contradiction

section
variable (inv : Inv key m) (place : m.pc txn = was)
include inv place

/-- A step that leaves the word and the queue alone: it moves a transaction on and
may lock or drop the bucket for it. -/
theorem inv_move (sound : Sound key m.queue pc) (self : bucket = some txn ↔ pc.inBucket = true)
    (others : ∀ u, u ≠ txn → (bucket = some u ↔ m.bucket = some u))
    (believes : pc.believes = was.believes) (queued : pc.isQueued = was.isQueued) :
    Inv key (Machine.goto { m with bucket := bucket } txn pc) := by
  subst place
  have old := inv.each txn
  refine inv_goto_of ?_ ?_ ?_
  · exact inv.once
  · exact ⟨self, by rw [believes]; exact old.owner, by rw [believes]; exact old.owned,
      by rw [queued]; exact old.queued, old.granted, old.awaited, sound⟩
  · intro u other
    exact { inv.each u with bucket := (others u other).trans (inv.each u).bucket }

/-- A step that only moves a transaction on, keeping what it has of the row, the
bucket and the queue. -/
theorem inv_goto (sound : Sound key m.queue pc)
    (bucket : pc.inBucket = was.inBucket) (believes : pc.believes = was.believes)
    (queued : pc.isQueued = was.isQueued) : Inv key (m.goto txn pc) :=
  inv_move inv place sound (by rw [bucket, ← place]; exact (inv.each txn).bucket) (fun _ _ => Iff.rfl)
    believes queued

theorem inv_lock (free : m.bucket = none) (sound : Sound key m.queue pc)
    (inside : pc.inBucket = true) (believes : pc.believes = was.believes) (queued : pc.isQueued = was.isQueued) :
    Inv key (Machine.goto { m with bucket := some txn } txn pc) := by
  apply inv_move inv place sound (by simp [inside]) _ believes queued
  intro u other
  simp [free, other.symm]

theorem inv_unlock (holds : was.inBucket = true) (sound : Sound key m.queue pc) (outside : pc.inBucket = false)
    (believes : pc.believes = was.believes) (queued : pc.isQueued = was.isQueued) :
    Inv key (Machine.goto { m with bucket := none } txn pc) := by
  have mine := (inv.each txn).bucket.mpr (place ▸ holds)
  apply inv_move inv place sound (by simp [outside]) _ believes queued
  intro u other
  simp [mine, other.symm]

end

/-- The word of a row without entries may change under a transaction as long as
that neither makes it the holder nor takes the row from it. -/
theorem fits_word (fits : Fits key word queue bucket u pc) (empty : parkedIds key queue = [])
    (same : word'.holder = some u ↔ word.holder = some u) : Fits key word' queue bucket u pc := by
  refine fits_empty empty fits.bucket ?_ (by simpa [empty] using fits.queued) fits.sound
  rw [same]
  exact ⟨fits.owner, fun named => (fits.owned named).resolve_right (absent_of_empty empty)⟩

/-- Only the transaction that has the bucket relies on what is in the queue. -/
theorem sound_outside (outside : pc.inBucket = false) (sound : Sound key queue pc)
    (queue' : List Parked) : Sound key queue' pc := by
  cases pc <;> first | exact sound | cases outside

/-- A queue that keeps a transaction's own entries is as good to it. -/
theorem Fits.requeue (fits : Fits key word queue bucket u pc) (outside : pc.inBucket = false)
    (keeps : ∀ mark, (⟨key, u, mark⟩ : Parked) ∈ queue' ↔ ⟨key, u, mark⟩ ∈ queue) : Fits key word queue' bucket u pc :=
  { fits with
    owned := fun named => (fits.owned named).imp id (keeps true).mpr
    queued := by
      rw [← fits.queued, mem_parkedIds, mem_parkedIds]
      simp only [keeps]
    granted := fun member => fits.granted ((keeps true).mp member)
    awaited := fun member => fits.awaited ((keeps false).mp member)
    sound := sound_outside outside fits.sound _ }

theorem Inv.others_outside (inv : Inv key m) (inside : (m.pc txn).inBucket = true)
    (other : u ≠ txn) : (m.pc u).inBucket = false := by
  have mine := (inv.each txn).bucket.mpr inside
  have theirs := (inv.each u).bucket
  rw [mine, eq_comm] at theirs
  simpa [other] using theirs

theorem not_mem_of_unqueued (fits : Fits key word queue bucket u pc) (out : pc.isQueued = false) :
    (⟨key, u, mark⟩ : Parked) ∉ queue := by
  intro member
  have parked := fits.queued.mp (mem_parkedIds.mpr ⟨mark, member⟩)
  rw [out] at parked
  contradiction

section
variable (inv : Inv key m)
include inv

theorem inv_awaited : Inv key { m with word := m.word.awaited } :=
  ⟨fun u => { inv.each u with awaited := fun member => ⟨((inv.each u).awaited member).1, rfl⟩ },
    inv.once⟩

/-- A transaction queues behind a held row once `WAITERS` is set. -/
theorem inv_push (place : m.pc txn = was) (held : m.word.holder ≠ none) (bit : m.word.waiters = true)
    (inside : was.inBucket = true) (without : was.believes = false) (out : was.isQueued = false) :
    Inv key (push key m txn) := by
  subst place
  have old := inv.each txn
  have absent (mark : Bool) : (⟨key, txn, mark⟩ : Parked) ∉ m.queue := not_mem_of_unqueued old out
  have ids : parkedIds key (m.queue ++ [⟨key, txn, false⟩]) = parkedIds key m.queue ++ [txn] := by
    simp [parkedIds]
  have unparked : txn ∉ parkedIds key m.queue := by
    rw [old.queued, out]
    simp
  refine inv_goto_of ?_ ?_ ?_
  · simp only [ids]
    refine nodup_append.mpr ⟨inv.once, by simp, fun u member v last same => ?_⟩
    rw [same, mem_singleton.mp last] at member
    exact unparked member
  · constructor
    · exact iff_of_true (old.bucket.mpr inside) rfl
    · simp [Pc.believes]
    · intro named
      have granted := (old.owned named).resolve_left (by simp [without])
      exact absurd granted (absent true)
    · simp [ids, Pc.isQueued]
    · simpa using fun member => absurd member (absent true)
    · exact fun _ => ⟨held, bit⟩
    · trivial
  · intro u other
    exact (inv.each u).requeue (inv.others_outside inside other) fun mark => by simp [other]

/-- A release that finds no `WAITERS` lets go of a row nobody is parked on. -/
theorem inv_free (place : m.pc txn = was) (acts : was.believes = true) (bit : m.word.waiters = false)
    (out : was.isQueued = false) (outside : was.inBucket = false) :
    Inv key (Machine.goto { m with word := m.word.freed } txn .idle) := by
  subst place
  have old := inv.each txn
  have mine := old.owner acts
  have empty : parkedIds key m.queue = [] := by
    apply empty_of_absent
    intro u mark member
    cases mark with
    | false =>
      have waiting := ((inv.each u).awaited member).2
      rw [bit] at waiting
      contradiction
    | true =>
      have named := (inv.each u).granted member
      rw [mine, some.injEq] at named
      subst named
      exact not_mem_of_unqueued old out member
  refine inv_goto_of ?_ ?_ ?_
  · exact inv.once
  · exact fits_empty empty (by rw [old.bucket, outside]; exact Iff.rfl)
      (by simp [Pc.believes, LockWord.freed]) rfl trivial
  · intro u other
    apply fits_word (inv.each u) empty
    simp [LockWord.freed, mine, other.symm]

/-- The last waiter that gives up clears the bit for a row without entries. -/
theorem inv_clear (place : m.pc txn = .clearing) :
    Inv key (Machine.goto { m with word := m.word.unawaited } txn (.leaving false)) := by
  have old := inv.each txn
  have empty : parkedIds key m.queue = [] := by
    simpa [place, Sound] using old.sound
  refine inv_goto_of ?_ ?_ ?_
  · exact inv.once
  · have moved : Fits key m.word.unawaited m.queue m.bucket txn (m.pc txn) :=
      fits_word old empty Iff.rfl
    rw [place] at moved
    exact { moved with sound := trivial }
  · exact fun u _ => fits_word (inv.each u) empty Iff.rfl

/-- A release that holds the bucket hands the row to the oldest waiter and marks
it, or frees the row when everybody left. -/
theorem inv_hand (place : m.pc txn = .scanned oldest more) : Inv key (Machine.goto
      { m with word := handed m.word oldest more, queue := grant m.queue oldest } txn (.leaving false)) := by
  have old := inv.each txn
  rw [place] at old
  have inside : (m.pc txn).inBucket = true := by rw [place]; rfl
  have mine : m.word.holder = some txn := old.owner rfl
  have found : Scanned key m.queue oldest more := by
    have spec := scan_spec key m.queue
    rwa [show scan key m.queue 0 none false = (oldest, more) from old.sound] at spec
  have unmarked : ∀ u, (⟨key, u, true⟩ : Parked) ∉ m.queue := by
    intro u member
    have named := (inv.each u).granted member
    rw [mine, some.injEq] at named
    subst named
    exact not_mem_of_unqueued old rfl member
  have ids : parkedIds key (grant m.queue oldest) = parkedIds key m.queue :=
    filterMap_grant _ (fun _ => rfl) m.queue oldest
  cases oldest with
  | none =>
    have empty : parkedIds key m.queue = [] := by
      apply empty_of_absent
      intro u mark member
      cases mark with
      | true => exact unmarked u member
      | false => simpa [Parked.awaits] using found.1 _ member
    refine inv_goto_of ?_ ?_ ?_
    · exact inv.once
    · exact fits_empty empty old.bucket (by simp [Pc.believes, handed, LockWord.freed]) rfl trivial
    · intro u other
      apply fits_word (inv.each u) empty
      simp [handed, LockWord.freed, mine, other.symm]
  | some first =>
    obtain ⟨best, heir⟩ := first
    obtain ⟨parked, at_, waits, same⟩ := found.1
    have shape : parked = ⟨key, heir, false⟩ := by
      obtain ⟨_, _, mark⟩ := parked
      simp only [Parked.awaits, Bool.and_eq_true, beq_iff_eq, Bool.not_eq_true'] at waits
      simp_all
    rw [shape] at at_
    have marked (u : TxnId) : (⟨key, u, true⟩ : Parked) ∈ grant m.queue (some (best, heir)) ↔ u = heir :=
      mem_grant at_ unmarked
    refine inv_goto_of ?_ ?_ ?_
    · simp only [ids]
      exact inv.once
    · constructor
      · exact old.bucket
      · simp [Pc.believes]
      · intro named
        exact .inr ((marked txn).mpr (some.inj named).symm)
      · rw [ids]; exact old.queued
      · exact fun member => congrArg some ((marked txn).mp member).symm
      · exact fun member => ⟨by simp [handed], (more_of_unmarked found member).1⟩
      · trivial
    · intro u other
      have fits := inv.each u
      constructor
      · exact fits.bucket
      · intro acts
        have named := fits.owner acts
        rw [mine, some.injEq] at named
        exact absurd named.symm other
      · intro named
        exact .inr ((marked u).mpr (some.inj named).symm)
      · rw [ids]; exact fits.queued
      · exact fun member => congrArg some ((marked u).mp member).symm
      · exact fun member => ⟨by simp [handed], (more_of_unmarked found member).1⟩
      · exact sound_outside (inv.others_outside inside other) fits.sound _

/-- A waiter that leaves takes its own entry out. It has the row exactly when the
entry was marked. -/
theorem inv_remove (place : m.pc txn = .queued)
    (at_ : m.queue[index]? = some ⟨key, txn, mark⟩) (inside : pc.inBucket = true)
    (out : pc.isQueued = false) (believes : pc.believes = mark) (sound : Sound key (swapRemove m.queue index) pc) :
    Inv key (Machine.goto { m with queue := swapRemove m.queue index } txn pc) := by
  have old := inv.each txn
  rw [place] at old
  have perm := swapRemove_cons_perm at_
  have ids : (parkedIds key m.queue).Perm (txn :: parkedIds key (swapRemove m.queue index)) := by
    have moved := perm.filterMap fun parked => if parked.key = key then some parked.me else none
    simpa [parkedIds] using moved
  obtain ⟨gone, once⟩ := nodup_cons.mp (ids.nodup_iff.mp inv.once)
  have absent (mark : Bool) : (⟨key, txn, mark⟩ : Parked) ∉ swapRemove m.queue index :=
    fun member => gone (mem_parkedIds.mpr ⟨mark, member⟩)
  refine inv_goto_of ?_ ?_ ?_
  · exact once
  · constructor
    · exact iff_of_true (old.bucket.mpr rfl) inside
    · intro acts
      rw [believes] at acts
      rw [acts] at at_
      exact old.granted (mem_of_getElem? at_)
    · intro named
      left
      have marked := (old.owned named).resolve_left (by simp [Pc.believes])
      rw [perm.mem_iff, mem_cons] at marked
      have same := marked.resolve_right (absent true)
      simp only [Parked.mk.injEq, true_and] at same
      rw [believes, same]
    · exact iff_of_false gone (by simp [out])
    · exact fun member => absurd member (absent true)
    · exact fun member => absurd member (absent false)
    · exact sound
  · intro u other
    refine (inv.each u).requeue (inv.others_outside (by rw [place]; rfl) other) fun mark => ?_
    rw [perm.mem_iff]
    simp [other]

theorem inv_elsewhere (free : m.bucket = none) (perm : (queue.filter fun parked => parked.key == key).Perm
      (m.queue.filter fun parked => parked.key == key)) : Inv key { m with queue := queue } := by
  have filtered (queue : List Parked) : parkedIds key queue =
      (queue.filter fun parked => parked.key == key).map Parked.me := by
    simp [parkedIds, ← filterMap_eq_map, filterMap_filter]
  have ids : (parkedIds key queue).Perm (parkedIds key m.queue) := by
    rw [filtered, filtered]
    exact perm.map Parked.me
  refine ⟨fun u => ?_, ids.nodup_iff.mpr inv.once⟩
  have outside : (m.pc u).inBucket = false := by
    simpa [free] using (inv.each u).bucket
  refine (inv.each u).requeue outside fun mark => ?_
  simpa using perm.mem_iff (a := (⟨key, u, mark⟩ : Parked))

theorem inv_parkLoop (place : m.pc txn = was) (inside : was.inBucket = true) (without : was.believes = false)
    (out : was.isQueued = false) : Inv key (parkLoop key m txn) := by
  unfold parkLoop
  split
  · rename_i unchanged
    have held : m.word.holder ≠ none := by
      intro free
      have taken := congrArg LockWord.holder unchanged
      simp [LockWord.parking, LockWord.taken, free] at taken
    have bit : m.word.waiters = true := by
      rw [← unchanged]
      simp [LockWord.parking, held, LockWord.awaited]
    exact inv_push inv place held bit inside without out
  · exact inv_goto inv place trivial inside.symm without.symm out.symm

end

theorem inv_check (inv : Inv key (m.goto txn .queued)) (done : check key m txn late = some m') : Inv key m' := by
  simp only [check, bind_eq_bind, bind_eq_some_iff] at done
  obtain ⟨index, found, parked, at_, done⟩ := done
  have shape : parked = ⟨key, txn, parked.granted⟩ := by
    obtain ⟨inside, here, -⟩ := findIdx?_eq_some_iff_getElem.mp found
    rw [Parked.isAt] at here
    cases parked
    simp_all
  rw [shape] at at_
  have place : (m.goto txn .queued).pc txn = .queued := Function.update_self ..
  have remove (pc : Pc) (inside : pc.inBucket = true) (out : pc.isQueued = false)
      (believes : pc.believes = parked.granted)
      (sound : Sound key (swapRemove m.queue index) pc) :
      Inv key (Machine.goto { m with queue := swapRemove m.queue index } txn pc) := by
    simpa [Machine.goto] using inv_remove inv place at_ inside out believes sound
  split at done
  · rename_i granted
    cases done
    exact remove (.leaving true) rfl rfl granted.symm trivial
  rename_i ungranted
  have unmarked : parked.granted = false := by simpa using ungranted
  split at done
  · cases done
    split
    · exact remove (.leaving false) rfl rfl unmarked.symm trivial
    rename_i alone
    refine remove .clearing rfl rfl unmarked.symm ?_
    apply empty_of_absent
    intro u mark member
    exact alone (any_eq_true.mpr ⟨_, member, by simp⟩)
  · cases done
    exact inv

/-- A transaction that is not parked has the row exactly when the word says so. -/
theorem Fits.believes_iff (fits : Fits key word queue bucket txn pc) (out : pc.isQueued = false) :
    pc.believes = true ↔ word.holder = some txn := by
  refine ⟨fits.owner, fun named => ?_⟩
  exact (fits.owned named).resolve_right (not_mem_of_unqueued fits out)

section
variable (inv : Inv key m) (place : m.pc txn = was) (outside : was.inBucket = false) (out : was.isQueued = false)
include inv place outside out

theorem inv_claimLoop : Inv key (m.goto txn (claimLoop wait txn m.word)) := by
  have acts := (place ▸ inv.each txn).believes_iff out
  unfold claimLoop
  cases held : m.word.holder with
  | none =>
    have without : was.believes = false := by simpa [held] using acts
    exact inv_goto inv place held outside.symm without.symm out.symm
  | some holder =>
    dsimp only
    by_cases mine : holder = txn
    · have believes : was.believes = true := by simpa [held, mine] using acts
      rw [if_pos mine]
      exact inv_goto inv place trivial outside.symm believes.symm out.symm
    · have without : was.believes = false := by simpa [held, mine] using acts
      rw [if_neg mine]
      split <;> exact inv_goto inv place trivial outside.symm without.symm out.symm

theorem inv_takeLoop (without : was.believes = false) : Inv key (m.goto txn (takeLoop m.word)) := by
  unfold takeLoop
  cases held : m.word.holder with
  | none => exact inv_goto inv place held outside.symm without.symm out.symm
  | some _ => exact inv_goto inv place trivial outside.symm without.symm out.symm

theorem inv_releaseLoop (believes : was.believes = true) : Inv key (m.goto txn (releaseLoop m.word)) := by
  unfold releaseLoop
  split
  · exact inv_goto inv place trivial outside.symm believes.symm out.symm
  · rename_i bit
    exact inv_goto inv place (by simpa [Sound] using bit) outside.symm believes.symm out.symm

end

/-- A compare-exchange of `claim`, `take` or the parking loop that found the row
free and the word unchanged. -/
theorem inv_exchange (inv : Inv key m) (place : m.pc txn = was) (same : m.word = word) (free : word.holder = none)
    (bucket : pc.inBucket = was.inBucket) (believes : pc.believes = true)
    (queued : pc.isQueued = was.isQueued) (sound : Sound key m.queue pc) :
    Inv key (Machine.goto { m with word := word.taken txn } txn pc) := by
  subst place same
  have empty := inv.free_empty free
  have old := inv.each txn
  refine inv_goto_of ?_ ?_ ?_
  · exact inv.once
  · exact fits_empty empty (by rw [bucket]; exact old.bucket) (by simp [believes, LockWord.taken])
      (by simpa [queued, empty] using old.queued) sound
  · intro u other
    apply fits_word (inv.each u) empty
    simp [LockWord.taken, free, other.symm]

/-- One atomic operation keeps the invariant, whichever transaction makes it. -/
theorem run_inv (inv : Inv key m) (done : run key m txn spurious late = some m') : Inv key m' := by
  have old := inv.each txn
  unfold run at done
  cases place : m.pc txn with
  | idle | holding => simp [place] at done
  | claiming wait word =>
    have free : word.holder = none := by simpa [place, Sound] using old.sound
    simp only [place] at done
    split at done <;> cases done
    · rename_i won
      exact inv_exchange inv place won.1 free rfl rfl rfl trivial
    · exact inv_claimLoop inv place rfl rfl
  | spinning left =>
    cases left with
    | zero =>
      simp only [place] at done
      split at done
      · rename_i unlocked
        cases done
        exact inv_lock inv place unlocked trivial rfl rfl rfl
      · contradiction
    | succ left =>
      simp only [place] at done
      cases done
      split
      all_goals
        exact inv_goto inv place trivial rfl rfl rfl
  | retaking =>
    simp only [place] at done
    cases done
    exact inv_takeLoop inv place rfl rfl rfl
  | taking word =>
    have free : word.holder = none := by simpa [place, Sound] using old.sound
    simp only [place] at done
    split at done <;> cases done
    · rename_i won
      exact inv_exchange inv place won.1 free rfl rfl rfl trivial
    · exact inv_takeLoop inv place rfl rfl rfl
  | parking =>
    simp only [place] at done
    cases done
    exact inv_parkLoop inv place rfl rfl rfl
  | parkTry word =>
    simp only [place] at done
    split at done
    · rename_i won
      split at done <;> cases done
      · rename_i free
        rw [LockWord.parking, if_pos free]
        exact inv_exchange inv place won.1 (by simpa using free) rfl rfl rfl trivial
      rename_i held
      rw [LockWord.parking, if_neg held, ← won.1]
      refine inv_push (inv_awaited inv) place ?_ rfl rfl rfl rfl
      simpa [← won.1, LockWord.awaited] using held
    · cases done
      exact inv_parkLoop inv place rfl rfl rfl
  | queued =>
    simp only [place] at done
    cases done
    exact inv_unlock inv place rfl trivial rfl rfl rfl
  | asleep =>
    simp only [place] at done
    split at done
    · rename_i unlocked
      refine inv_check ?_ done
      exact inv_lock inv place unlocked trivial rfl rfl rfl
    · contradiction
  | clearing =>
    simp only [place] at done
    cases done
    exact inv_clear inv place
  | leaving got =>
    simp only [place] at done
    cases done
    cases got
    all_goals exact inv_unlock inv place rfl trivial rfl rfl rfl
  | finishing =>
    simp only [place] at done
    cases done
    exact inv_releaseLoop inv place rfl rfl rfl
  | releasing word =>
    have bit : word.waiters = false := by simpa [place, Sound] using old.sound
    simp only [place] at done
    split at done <;> cases done
    · rename_i won
      rw [← won.1] at bit ⊢
      exact inv_free inv place rfl bit rfl rfl
    · exact inv_releaseLoop inv place rfl rfl rfl
  | handing =>
    simp only [place] at done
    split at done
    · rename_i unlocked
      cases done
      exact inv_lock inv place unlocked rfl rfl rfl rfl
    · contradiction
  | scanned oldest more =>
    simp only [place] at done
    cases done
    exact inv_hand inv place

theorem next_inv (inv : Inv key m) (done : next key m event = some m') : Inv key m' := by
  cases event with
  | claim txn wait =>
    simp only [Handoff.next] at done
    split at done
    all_goals first | contradiction | skip
    all_goals
      rename_i place
      cases done
      exact inv_claimLoop inv place rfl rfl
  | finish txn =>
    simp only [Handoff.next] at done
    split at done
    all_goals first | contradiction | skip
    all_goals
      rename_i place
      cases done
      split
    · rename_i mine
      have believes := ((place ▸ inv.each txn).believes_iff rfl).mpr mine
      contradiction
    · exact inv
    · exact inv_goto inv place trivial rfl rfl rfl
    · exact inv
  | refuse txn =>
    simp only [Handoff.next] at done
    split at done
    · rename_i place
      cases done
      exact inv_goto inv place trivial rfl rfl rfl
    · contradiction
  | run txn spurious late => exact run_inv inv done
  | elsewhere queue =>
    simp only [Handoff.next] at done
    split at done
    · rename_i quiet
      cases done
      exact inv_elsewhere inv quiet.1 quiet.2
    · contradiction

theorem reachable_inv (reached : Reachable key m) : Inv key m := by
  induction reached with
  | initial start => exact initial_inv start
  | step _ done ih => exact next_inv ih done

theorem unique_mark (once : (parkedIds key queue).Nodup)
    (one : (⟨key, txn, mark⟩ : Parked) ∈ queue) (two : (⟨key, txn, mark'⟩ : Parked) ∈ queue) : mark = mark' := by
  obtain ⟨front, back, rfl⟩ := append_of_mem one
  have ids : parkedIds key (front ++ ⟨key, txn, mark⟩ :: back) =
      parkedIds key front ++ txn :: parkedIds key back := by
    simp [parkedIds]
  rw [ids, nodup_append] at once
  obtain ⟨-, rest, apart⟩ := once
  rcases mem_append.mp two with early | late
  · exact absurd rfl (apart txn (mem_parkedIds.mpr ⟨mark', early⟩) txn (by simp))
  · rcases mem_cons.mp late with same | late
    · exact (congrArg Parked.granted same).symm
    · exact absurd (mem_parkedIds.mpr ⟨mark', late⟩) (nodup_cons.mp rest).1

/-- At most one transaction acts as the holder and the word names it; an entry is
marked exactly when the word names its transaction; and a waiter that is not
marked waits for a held row with `WAITERS` set, so that the holder's release
takes the bucket and its scan finds somebody. -/
theorem row_lock_handoff (reached : Reachable key m) : (∀ txn, (m.pc txn).believes = true → m.word.holder = some txn) ∧
    (∀ txn other, (m.pc txn).believes = true → (m.pc other).believes = true → txn = other) ∧
    (∀ parked ∈ m.queue, parked.key = key → (parked.granted = true ↔ m.word.holder = some parked.me)) ∧
    (∀ parked ∈ m.queue, parked.key = key → parked.granted = false →
      m.word.holder ≠ none ∧ m.word.waiters = true ∧ releaseLoop m.word = .handing ∧
        (scan key m.queue 0 none false).1 ≠ none) := by
  have inv := reachable_inv reached
  refine ⟨fun txn => (inv.each txn).owner, fun txn other acts otherActs => ?_, ?_, ?_⟩
  · have first := (inv.each txn).owner acts
    rw [(inv.each other).owner otherActs, Option.some.injEq] at first
    exact first.symm
  · rintro ⟨_, txn, mark⟩ member rfl
    refine ⟨fun marked => (inv.each txn).granted (by rwa [← marked]), fun named => ?_⟩
    -- A parked transaction does not act as the holder, so the word names it for its mark.
    have parked := (inv.each txn).queued.mp (mem_parkedIds.mpr ⟨mark, member⟩)
    rcases (inv.each txn).owned named with acts | marked
    · cases place : m.pc txn <;> simp_all [Pc.believes, Pc.isQueued]
    · cases mark with
      | true => rfl
      | false => exact absurd (unique_mark inv.once member marked) (by simp)
  · rintro ⟨row, txn, mark⟩ member rfl unmarked
    subst unmarked
    obtain ⟨held, bit⟩ := (inv.each txn).awaited member
    refine ⟨held, bit, by simp [releaseLoop, bit], fun none => ?_⟩
    have spec := scan_spec row m.queue
    rw [none] at spec
    simpa [Parked.awaits] using spec.1 _ member

def parkedRun : List Event :=
  [.claim ⟨1, by decide⟩ .never, .run ⟨1, by decide⟩ false false,
    .claim ⟨2, by decide⟩ ⟨10, true⟩] ++
  List.replicate spins (.run ⟨2, by decide⟩ false false) ++
  List.replicate 4 (.run ⟨2, by decide⟩ false false)

theorem row_lock_handoff_parked : ∃ m, steps 8 ⟨⟨none, false, false⟩, [], none, fun _ => .idle⟩ parkedRun = some m ∧
      m.queue = [⟨8, ⟨2, by decide⟩, false⟩] ∧ m.word = ⟨some ⟨1, by decide⟩, true, false⟩ ∧
      ∀ txn, (m.pc txn).believes = true → txn = ⟨1, by decide⟩ := by
  refine ⟨_, rfl, rfl, rfl, ?_⟩
  have reached : Reachable 8 _ := Reachable.steps
    (.initial ⟨rfl, rfl, by simp, rfl, fun _ => rfl⟩)
    (show steps 8 ⟨⟨none, false, false⟩, [], none, fun _ => .idle⟩ parkedRun = some _ from rfl)
  intro txn acts
  exact (Option.some.inj ((row_lock_handoff reached).1 txn acts)).symm

end Rudb.HandoffProofs
