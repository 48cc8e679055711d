import Mathlib.Data.Set.Finite.Lattice
import Parquex.StoreReadSound

/-!
# When a read comes to its end

Every step of a read finds the store in a state of its own. A range that is read
moves the offset on, unless the object has come to end just where the range
begins: then nothing is read, and the same range is asked for again.
-/

namespace Parquex

/-- A run whose rank goes down until it is over comes to its end. -/
theorem exists_ended_of_rank {α : Type*} {run : Nat → α} {ended : α → Prop} (rank : α → Nat) (first : Nat)
    (hstep : ∀ n, first ≤ n → ¬ ended (run n) → ended (run (n + 1)) ∨ rank (run (n + 1)) < rank (run n)) :
    ∃ n, ended (run n) := by
  suffices h : ∀ bound n, first ≤ n → rank (run n) ≤ bound → ∃ m, ended (run m) from h _ first (le_refl _) (le_refl _)
  intro bound
  induction bound with
  | zero =>
    intro n hn hr
    by_cases ho : ended (run n)
    · exact ⟨n, ho⟩
    · rcases hstep n hn ho with h | h
      · exact ⟨n + 1, h⟩
      · omega
  | succ bound ih =>
    intro n hn hr
    by_cases ho : ended (run n)
    · exact ⟨n, ho⟩
    · rcases hstep n hn ho with h | h
      · exact ⟨n + 1, h⟩
      · exact ih (n + 1) (by omega) (by omega)

/-! ## The states that the steps of a read find -/

/-- Before each step the store comes to be in the state that the step finds. -/
def meeting {σ : Type} (states : Nat → σ) (steps : Nat) : List (ReadEvent σ) :=
  (List.range steps).flatMap fun step => [.publish (states step), .advance]

namespace RangeStore

variable {σ ρ : Type} (store : RangeStore σ ρ) (key : String) (states : Nat → σ)

/-- The read after so many steps. -/
def readAt (steps : Nat) : ReadPhase ρ := store.read key (states 0) (meeting states steps)

theorem key_startRead (state : σ) : (startRead (ρ := ρ) key state).key = key := by
  unfold startRead
  cases hn : normalizeKey key with
  | error error => rfl
  | ok k => exact (normalizeKey_eq_ok hn).1

theorem readAt_succ (n : Nat) :
    store.readAt key states (n + 1) = store.advance key (states n) (store.readAt key states n) := by
  unfold readAt read meeting
  rw [List.range_succ, List.flatMap_append, Machine.run_append]
  have hkey := store.key_run (startRead key (states 0))
    ((List.range n).flatMap fun step => [.publish (states step), .advance])
  rw [key_startRead] at hkey
  generalize store.machine.run (startRead key (states 0)) _ = s at hkey ⊢
  change store.advance s.key (states n) s.phase = _
  rw [hkey]

theorem readAt_done {n : Nat} {result : Except (Stop Error) Bytes} (h : store.readAt key states n = .done result)
    {m : Nat} (hm : n ≤ m) : store.readAt key states m = .done result := by
  induction m, hm using Nat.le_induction with
  | base => exact h
  | succ m _ ih =>
    rw [readAt_succ, ih]
    rfl

end RangeStore

/-! ## Ranges that move on -/

namespace ReadPhase

variable {ρ : Type}

def Over (phase : ReadPhase ρ) : Prop := ∃ result, phase = .done result

/-- There is something to read from the offset on. -/
def Short : ReadPhase ρ → Prop
  | .lookup size offset _ | .fetch size offset _ _ => offset < size
  | _ => True

/-- The steps that are left, when each range brings a byte. -/
def rank : ReadPhase ρ → Nat
  | .head => 0
  | .lookup size offset _ => 2 * (size - offset) + 1
  | .fetch size offset _ _ => 2 * (size - offset)
  | .done _ => 0

/-- A recursive step of the read ends it or moves the offset on. -/
def MovesOn (phase next : ReadPhase ρ) : Prop :=
  match phase with
  | .fetch size offset _ _ => next.Over ∨ ∃ offset' chunks, next = .lookup size offset' chunks ∧ offset < offset'
  | _ => True

theorem readChunks_cases (size offset : Nat) (chunks : List Bytes) :
    (readChunks (ρ := ρ) size offset chunks).Over ∨
      readChunks (ρ := ρ) size offset chunks = .lookup size offset chunks ∧ offset < size := by
  unfold readChunks
  by_cases h : size ≤ offset
  · rw [if_pos h]
    exact Or.inl ⟨_, rfl⟩
  · rw [if_neg h]
    exact Or.inr ⟨rfl, by omega⟩

end ReadPhase

/-- Nothing of a range that was found is there to be read. -/
def FoundRange.Empty (files : FileSystem) (range : FoundRange) : Prop :=
  match files.metadata range.path with
  | .error _ => False
  | .ok (.file content) => range.length = 0 ∨ content.length ≤ range.offset
  | .ok _ => range.length = 0

theorem fetchRange_eq_nil_iff {files : FileSystem} {range : FoundRange} :
    LocalHost.fetchRange files range = .ok [] ↔ range.Empty files := by
  unfold LocalHost.fetchRange FoundRange.Empty
  cases files.metadata range.path with
  | error kind => simp
  | ok entry =>
    cases entry with
    | file content => simp [List.take_eq_nil_iff, List.drop_eq_nil_iff]
    | _ => by_cases h : range.length = 0 <;> simp [h]

/-- The read is about to fetch a range in which nothing is left. -/
def Stalls (files : FileSystem) : ReadPhase FoundRange → Prop
  | .fetch _ _ _ range => range.Empty files
  | _ => False

namespace LocalHost

variable (host : LocalHost) (maxRangeBytes : Nat) (key : String)

/-- What becomes of a fetch: an end, or the next lookup behind what was fetched. -/
theorem advance_fetch (files : FileSystem) {size offset : Nat} (chunks : List Bytes) (range : FoundRange)
    (hshort : offset < size) :
    ((host.rangeStore maxRangeBytes).advance key files (.fetch size offset chunks range)).Over ∧ ¬ range.Empty files ∨
      ∃ chunk, fetchRange files range = .ok chunk ∧ offset + chunk.length < size ∧
        (host.rangeStore maxRangeBytes).advance key files (.fetch size offset chunks range) =
          .lookup size (offset + chunk.length) (chunk :: chunks) := by
  have hfetch : (host.rangeStore maxRangeBytes).fetch files range = fetchRange files range := rfl
  rw [← fetchRange_eq_nil_iff]
  unfold RangeStore.advance
  simp only
  rw [hfetch]
  cases hf : fetchRange files range with
  | error failure => exact Or.inl ⟨⟨_, rfl⟩, by simp⟩
  | ok chunk =>
    simp only [TimePartition.nativeResult, Except.ok.injEq]
    rcases ReadPhase.readChunks_cases (ρ := FoundRange) size (offset + chunk.length) (chunk :: chunks) with h | ⟨h, hlt⟩
    · refine Or.inl ⟨h, ?_⟩
      rintro rfl
      obtain ⟨result, h⟩ := h
      simp [readChunks, Nat.not_le.mpr hshort] at h
    · exact Or.inr ⟨chunk, rfl, hlt, h⟩

theorem advance_lookup (files : FileSystem) (size offset : Nat) (chunks : List Bytes) :
    ((host.rangeStore maxRangeBytes).advance key files (.lookup size offset chunks)).Over ∨
      ∃ range, (host.rangeStore maxRangeBytes).advance key files (.lookup size offset chunks) =
        .fetch size offset chunks range := by
  unfold RangeStore.advance
  simp only
  split
  · exact Or.inl ⟨_, rfl⟩
  · exact Or.inr ⟨_, rfl⟩

theorem advance_head (files : FileSystem) :
    ((host.rangeStore maxRangeBytes).advance key files .head).Over ∨
      ∃ size, 0 < size ∧ (host.rangeStore maxRangeBytes).advance key files .head = .lookup size 0 [] := by
  unfold RangeStore.advance
  simp only
  split
  · exact Or.inl ⟨_, rfl⟩
  · rename_i metadata _
    rcases ReadPhase.readChunks_cases (ρ := FoundRange) metadata.size 0 [] with h | ⟨h, hlt⟩
    · exact Or.inl h
    · exact Or.inr ⟨_, hlt, h⟩

theorem short_advance (files : FileSystem) {phase : ReadPhase FoundRange} (h : phase.Short) :
    ((host.rangeStore maxRangeBytes).advance key files phase).Short := by
  cases phase with
  | head =>
    rcases host.advance_head maxRangeBytes key files with ⟨result, he⟩ | ⟨size, hs, he⟩ <;> rw [he]
    · trivial
    · exact hs
  | lookup size offset chunks =>
    rcases host.advance_lookup maxRangeBytes key files size offset chunks with ⟨result, he⟩ | ⟨range, he⟩ <;> rw [he]
    · trivial
    · exact h
  | fetch size offset chunks range =>
    rcases host.advance_fetch maxRangeBytes key files chunks range h with ⟨⟨result, he⟩, -⟩ | ⟨chunk, -, hlt, he⟩ <;>
      rw [he]
    · trivial
    · exact hlt
  | done result => trivial

/-- The step of a read moves on exactly when it does not stall. -/
theorem movesOn_advance_iff (files : FileSystem) {phase : ReadPhase FoundRange} (h : phase.Short) :
    phase.MovesOn ((host.rangeStore maxRangeBytes).advance key files phase) ↔ ¬ Stalls files phase := by
  cases phase with
  | fetch size offset chunks range =>
    change _ ∨ _ ↔ ¬ range.Empty files
    rcases host.advance_fetch maxRangeBytes key files chunks range h with ⟨hover, hempty⟩ | ⟨chunk, hf, -, he⟩
    · exact ⟨fun _ => hempty, fun _ => Or.inl hover⟩
    · rw [he, ← fetchRange_eq_nil_iff, hf]
      simp only [ReadPhase.Over, reduceCtorEq, exists_false, false_or, ReadPhase.lookup.injEq, true_and,
        Except.ok.injEq, ← List.length_eq_zero_iff]
      constructor
      · rintro ⟨offset', chunks', ⟨rfl, -⟩, hlt⟩
        omega
      · intro hne
        exact ⟨_, _, ⟨rfl, rfl⟩, by omega⟩
  | _ => simp [ReadPhase.MovesOn, Stalls]

/-- A step that does not stall ends the read, or leaves fewer steps. -/
theorem rank_advance (files : FileSystem) {phase : ReadPhase FoundRange} (h : phase.Short) (hhead : phase ≠ .head)
    (hover : ¬ phase.Over) (hstall : ¬ Stalls files phase) :
    ((host.rangeStore maxRangeBytes).advance key files phase).Over ∨
      ((host.rangeStore maxRangeBytes).advance key files phase).rank < phase.rank := by
  cases phase with
  | head => exact absurd rfl hhead
  | lookup size offset chunks =>
    rcases host.advance_lookup maxRangeBytes key files size offset chunks with ho | ⟨range, he⟩
    · exact Or.inl ho
    · rw [he]
      exact Or.inr (Nat.lt_succ_self _)
  | fetch size offset chunks range =>
    rcases host.advance_fetch maxRangeBytes key files chunks range h with ⟨ho, -⟩ | ⟨chunk, hf, hlt, he⟩
    · exact Or.inl ho
    · have hne : chunk.length ≠ 0 := by
        intro hzero
        rw [List.length_eq_zero_iff.mp hzero] at hf
        exact hstall (fetchRange_eq_nil_iff.mp hf)
      rw [he]
      exact Or.inr (by simp only [ReadPhase.rank]; omega)
  | done result => exact absurd ⟨result, rfl⟩ hover

/-! ## Reads that end -/

variable (states : Nat → FileSystem)

theorem short_readAt (n : Nat) : ((host.rangeStore maxRangeBytes).readAt key states n).Short := by
  induction n with
  | zero =>
    change (startRead key (states 0)).phase.Short
    unfold startRead
    split <;> trivial
  | succ n ih =>
    rw [RangeStore.readAt_succ]
    exact host.short_advance maxRangeBytes key _ ih

theorem readAt_succ_ne_head (n : Nat) : (host.rangeStore maxRangeBytes).readAt key states (n + 1) ≠ .head := by
  have hshort := host.short_readAt maxRangeBytes key states n
  rw [RangeStore.readAt_succ]
  cases hphase : (host.rangeStore maxRangeBytes).readAt key states n with
  | head =>
    rcases host.advance_head maxRangeBytes key (states n) with ⟨result, he⟩ | ⟨size, -, he⟩ <;> rw [he] <;> simp
  | lookup size offset chunks =>
    rcases host.advance_lookup maxRangeBytes key (states n) size offset chunks with ⟨result, he⟩ | ⟨range, he⟩ <;>
      rw [he] <;> simp
  | fetch size offset chunks range =>
    rw [hphase] at hshort
    rcases host.advance_fetch maxRangeBytes key (states n) chunks range hshort with ⟨⟨result, he⟩, -⟩ | ⟨_, -, -, he⟩ <;>
      rw [he] <;> simp
  | done result => simp [RangeStore.advance]

/-- A read moves on with every range unless one finds nothing left of the object, and ends unless this happens for ever. -/
theorem store_read_ends_iff :
    ((∀ n, ((host.rangeStore maxRangeBytes).readAt key states n).MovesOn
        ((host.rangeStore maxRangeBytes).readAt key states (n + 1))) ↔
      ∀ n, ¬ Stalls (states n) ((host.rangeStore maxRangeBytes).readAt key states n)) ∧
    ((∃ n, ((host.rangeStore maxRangeBytes).readAt key states n).Over) ↔
      {n | Stalls (states n) ((host.rangeStore maxRangeBytes).readAt key states n)}.Finite) := by
  refine ⟨forall_congr' fun n => ?_, ?_, ?_⟩
  · rw [RangeStore.readAt_succ]
    exact host.movesOn_advance_iff maxRangeBytes key (states n) (host.short_readAt maxRangeBytes key states n)
  · intro ⟨n, result, hn⟩
    refine (Set.finite_lt_nat n).subset fun m hm => ?_
    by_contra hle
    have hdone := RangeStore.readAt_done _ key states hn (Nat.le_of_not_lt hle)
    rw [Set.mem_ofPred_eq, hdone] at hm
    exact hm
  · intro hfinite
    obtain ⟨last, hlast⟩ := hfinite.bddAbove
    refine exists_ended_of_rank ReadPhase.rank (last + 1) fun n hn hover => ?_
    obtain ⟨m, rfl⟩ : ∃ m, n = m + 1 := ⟨n - 1, by omega⟩
    rw [RangeStore.readAt_succ _ _ _ (m + 1)]
    apply host.rank_advance maxRangeBytes key
    · exact host.short_readAt maxRangeBytes key states (m + 1)
    · exact host.readAt_succ_ne_head maxRangeBytes key states m
    · exact hover
    · intro hstall
      have := hlast hstall
      omega

end LocalHost

/-! ## A read that does not end -/

/-- The object has been cut to its first byte. -/
def cutFile : FileSystem := oneFile.set ["a"] (.file [1])

def cutAfterOne (step : Nat) : FileSystem := if step < 3 then oneFile else cutFile

theorem openRange_cut : (oneHost.rangeStore 1).openRange cutFile "a" 1 1 = .ok ⟨["a"], 1, 0⟩ := by decide

theorem fetchRange_cut : LocalHost.fetchRange cutFile ⟨["a"], 1, 0⟩ = .ok [] := by decide

theorem readAt_cut (n : Nat) : ∃ chunks, (oneHost.rangeStore 1).readAt "a" cutAfterOne (n + 3) = .lookup 2 1 chunks ∨
    (oneHost.rangeStore 1).readAt "a" cutAfterOne (n + 3) = .fetch 2 1 chunks ⟨["a"], 1, 0⟩ := by
  induction n with
  | zero => exact ⟨[[1]], Or.inl (by decide)⟩
  | succ n ih =>
    have hcut : cutAfterOne (n + 3) = cutFile := if_neg (by omega)
    obtain ⟨chunks, h | h⟩ := ih
    · refine ⟨chunks, Or.inr ?_⟩
      rw [show n + 1 + 3 = (n + 3) + 1 by omega, RangeStore.readAt_succ, h, hcut]
      unfold RangeStore.advance
      simp only
      rw [show min (oneHost.rangeStore 1).maxRangeBytes (2 - 1) = 1 from rfl, openRange_cut]
    · refine ⟨[] :: chunks, Or.inl ?_⟩
      rw [show n + 1 + 3 = (n + 3) + 1 by omega, RangeStore.readAt_succ, h, hcut]
      have hfetch : (oneHost.rangeStore 1).fetch cutFile ⟨["a"], 1, 0⟩ = .ok [] := fetchRange_cut
      unfold RangeStore.advance
      simp only
      rw [hfetch]
      rfl

/-- An object of two bytes is cut to one after its first byte has been read. -/
theorem store_read_never_ends :
    ¬ ∀ (host : LocalHost) (maxRangeBytes : Nat) (key : String) (states : Nat → FileSystem), 1 ≤ maxRangeBytes →
      ∃ n, ((host.rangeStore maxRangeBytes).readAt key states n).Over := by
  intro h
  obtain ⟨n, result, hn⟩ := h oneHost 1 "a" cutAfterOne (le_refl 1)
  have hdone := RangeStore.readAt_done _ _ _ hn (Nat.le_add_right n 3)
  obtain ⟨chunks, hcut | hcut⟩ := readAt_cut n <;> rw [hcut] at hdone <;> cases hdone

end Parquex
