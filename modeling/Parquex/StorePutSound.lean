import Parquex.BackendAgreement
import Parquex.Holdings
import Parquex.PublishFailure
import Parquex.Visibility

/-!
# What a put leaves

A put changes one key, makes the directories above it, and leaves nothing beside
them. If system calls fail in it, the staging file may stay behind and some of the
directories may be missing, but the objects are as they were.
-/

namespace Parquex

/-! ## The directories above an object -/

/-- Some directories have come where nothing was. -/
def FileSystem.Grown (files files' : FileSystem) (come : Path → Prop) : Prop :=
  ∀ q, files'.get q = files.get q ∨ (come q ∧ files.get q = none ∧ files'.get q = some .directory)

namespace FileSystem.Grown

variable {files mid files' : FileSystem} {come : Path → Prop} {q : Path}

theorem refl (files : FileSystem) (come : Path → Prop) : files.Grown files come := fun _ => Or.inl rfl

theorem trans (h : files.Grown mid come) (h' : mid.Grown files' come) : files.Grown files' come := by
  intro q
  rcases h' q with hq | ⟨hc, hn, hd⟩
  · rw [hq]
    exact h q
  · rcases h q with hq | ⟨-, -, hm⟩
    · exact Or.inr ⟨hc, by rw [← hq, hn], hd⟩
    · rw [hn] at hm
      cases hm

theorem of_createDir (hc : files.createDir q = .ok files') (hq : come q) : files.Grown files' come := by
  intro p
  rw [get_create hc]
  by_cases hp : p = q
  · simp [hp, hq, (create_eq_ok hc).2.1]
  · simp [hp]

theorem get_of_ne_none (h : files.Grown files' come) (hq : files.get q ≠ none) : files'.get q = files.get q := by
  rcases h q with hq' | ⟨-, hn, -⟩
  · exact hq'
  · exact absurd hn hq

theorem content (h : files.Grown files' come) (q : Path) : files'.content q = files.content q := by
  rcases h q with hq | ⟨-, hn, hd⟩
  · exact content_congr hq
  · simp [FileSystem.content, hn, hd]

end FileSystem.Grown

namespace LocalHost

variable {host : LocalHost} {files files' : FileSystem} {faults : Faults} {key : String}

/-- The directories that a key asks for. -/
def Parent (host : LocalHost) (key : String) (q : Path) : Prop :=
  ∃ p, p ≠ [] ∧ p <+: (keyPath key).dropLast ∧ q = host.root ++ p

theorem attempt_never {α : Type} (call : SystemCall) (result : Except IoErrorKind α) :
    Faults.never.attempt call result = result := rfl

theorem faults_attempt_eq_ok_iff {α : Type} {call : SystemCall} {result : Except IoErrorKind α} {a : α} :
    faults.attempt call result = .ok a ↔ faults.failure call = none ∧ result = .ok a := by
  unfold Faults.attempt
  cases faults.failure call <;> simp


variable (faults key) in
/-- The walk down the rest of the way: it ends with all directories there, or it fails; without faults it fails only
at a file, and has then made nothing. -/
theorem ensureParents_walks (h : host.ObjectTree files) {done left : Path}
    (hparents : done ++ left = (keyPath key).dropLast) (hdone : files.get (host.root ++ done) = some .directory) :
    let result := ensureParents faults files (host.root ++ done) left
    host.ObjectTree result.2 ∧ files.Grown result.2 (host.Parent key) ∧
      ((result.1 = .ok () ∧ result.2.get (host.root ++ (keyPath key).dropLast) = some .directory) ∨
        ∃ failure, result.1 = .error failure ∧ (faults = .never →
          failure = .invalid .storeWriterOpen "local object parent must be a directory" ∧ result.2 = files ∧
            ∃ p content, p <+: (keyPath key).dropLast ∧ files.get (host.root ++ p) = some (.file content))) := by
  induction left generalizing files done with
  | nil =>
    rw [List.append_nil] at hparents
    subst hparents
    exact ⟨h, .refl _ _, Or.inl ⟨rfl, hdone⟩⟩
  | cons name left ih =>
    have hnext : (done ++ [name]) ++ left = (keyPath key).dropLast := by simpa using hparents
    have hpath : host.root ++ done ++ [name] = host.root ++ (done ++ [name]) := List.append_assoc _ _ _
    have hpre : done ++ [name] <+: (keyPath key).dropLast := by
      rw [← hnext]
      exact List.prefix_append _ _
    unfold ensureParents
    rw [hpath]
    cases hlook : faults.attempt .metadata
        ((files.get (host.root ++ (done ++ [name]))).elim (.error .notFound) .ok) with
    | ok entry =>
      have hget : files.get (host.root ++ (done ++ [name])) = some entry := by
        have hresult := (faults_attempt_eq_ok_iff.mp hlook).2
        cases hg : files.get (host.root ++ (done ++ [name])) with
        | none => rw [hg] at hresult; cases hresult
        | some e =>
          rw [hg] at hresult
          cases hresult
          rfl
      cases entry with
      | symlink absolute target => exact absurd hget (h.tree.links _ _ _)
      | file content => exact ⟨h, .refl _ _, Or.inr ⟨_, rfl, fun _ => ⟨rfl, rfl, _, content, hpre, hget⟩⟩⟩
      | directory => exact ih h hnext hget
    | error kind =>
      have hother : ∀ (kind : IoErrorKind), kind ≠ .notFound →
          faults.attempt .metadata ((files.get (host.root ++ (done ++ [name]))).elim (.error .notFound) .ok) =
            .error kind → faults ≠ .never := by
        rintro kind hkind hl rfl
        rw [attempt_never] at hl
        cases hg : files.get (host.root ++ (done ++ [name])) with
        | none =>
          rw [hg] at hl
          cases hl
          exact hkind rfl
        | some e => rw [hg] at hl; cases hl
      cases kind with
      | notFound =>
        simp only
        cases hmake : faults.attempt .createDir (files.createDir (host.root ++ (done ++ [name]))) with
        | error kind =>
          refine ⟨h, .refl _ _, Or.inr ⟨_, rfl, ?_⟩⟩
          rintro rfl
          rw [attempt_never] at hlook hmake
          have hnone : files.get (host.root ++ (done ++ [name])) = none := by
            cases hg : files.get (host.root ++ (done ++ [name])) with
            | none => rfl
            | some e => rw [hg] at hlook; cases hlook
          have hparent : files.requireParent (host.root ++ (done ++ [name])) = .ok () := by
            rw [FileSystem.requireParent_eq_ok, ← hpath, List.dropLast_concat]
            exact hdone
          unfold FileSystem.createDir FileSystem.create at hmake
          rw [hparent, hnone] at hmake
          cases hmake
        | ok made =>
          have hcreate := (faults_attempt_eq_ok_iff.mp hmake).2
          have hmade : made.get (host.root ++ (done ++ [name])) = some .directory := by
            rw [FileSystem.get_create hcreate, if_pos rfl]
          have hgrown : files.Grown made (host.Parent key) :=
            .of_createDir hcreate ⟨_, by simp, hpre, rfl⟩
          obtain ⟨htree, hmore, hend⟩ := ih (h.createDir hcreate) hnext hmade
          refine ⟨htree, hgrown.trans hmore, ?_⟩
          rcases hend with hend | ⟨failure, hfailed, hnever⟩
          · exact Or.inl hend
          · refine Or.inr ⟨failure, hfailed, fun hf => ?_⟩
            -- Nothing lies beneath a directory that has just been made.
            obtain ⟨-, -, p, content, hp, hfile⟩ := hnever hf
            have hold : files.get (host.root ++ p) = some (.file content) := by
              rw [FileSystem.get_create hcreate] at hfile
              split at hfile
              · cases hfile
              · exact hfile
            exfalso
            have hnone := (FileSystem.create_eq_ok hcreate).2.1
            rcases List.prefix_or_prefix_of_prefix hp hpre with hle | hle
            · rcases List.prefix_concat_iff.mp hle with rfl | hle
              · rw [hnone] at hold
                cases hold
              · by_cases he : p = done
                · rw [he, hdone] at hold
                  cases hold
                · rw [h.tree.above hdone hle he] at hold
                  cases hold
            · by_cases he : done ++ [name] = p
              · rw [he, hold] at hnone
                cases hnone
              · rw [h.tree.above hold hle he] at hnone
                cases hnone
      | _ => exact ⟨h, .refl _ _, Or.inr ⟨_, rfl, fun hf => absurd hf (hother _ (by simp) hlook)⟩⟩

/-! ## Opening a writer -/

variable {options : WriteOptions} {sequence : Nat} {w : LocalWriter}

def stagePath (host : LocalHost) (key : String) (sequence : Nat) : Path :=
  (host.location key).dropLast ++ [host.stageName ((host.location key).getLast?.getD "") sequence]

/-- A writer as an open leaves it. -/
def openedWriter (host : LocalHost) (key : String) (options : WriteOptions) (sequence : Nat) : LocalWriter :=
  { file := true, stagePath := host.stagePath key sequence, destination := host.location key, flush := options.flush,
    sync := options.sync, cancelled := false, active := true }

/-- There is no staging file. -/
def Unstaged (host : LocalHost) (files : FileSystem) : Prop :=
  ∀ p, host.ReservedPath p → files.get (host.root ++ p) = none

/-- No part of the key has the form of a staging file. -/
def Free (host : LocalHost) (key : String) : Prop := ∀ p, p <+: keyPath key → ¬ host.ReservedPath p

theorem Unstaged.grown (h : host.Unstaged files) (hfree : host.Free key)
    (hgrown : files.Grown files' (host.Parent key)) : host.Unstaged files' := by
  intro p hp
  rcases hgrown (host.root ++ p) with hq | ⟨⟨q, -, hq, he⟩, -, -⟩
  · rw [hq]
    exact h p hp
  · rw [List.append_cancel_left he] at hp
    exact absurd hp (hfree q (hq.trans (List.dropLast_prefix _)))

theorem dropLast_location (hk : AcceptedKey key) : (host.location key).dropLast = host.root ++ (keyPath key).dropLast :=
  List.dropLast_append_of_ne_nil hk.keyPath_ne_nil

theorem Unstaged.stagePath (h : host.Unstaged files) (hk : AcceptedKey key) (sequence : Nat) :
    files.get (host.stagePath key sequence) = none := by
  unfold LocalHost.stagePath
  rw [dropLast_location hk, List.append_assoc]
  exact h _ (reservedPath_stage _ _ _)

theorem resolveDestination_of_parent (h : host.ObjectTree files) (hk : AcceptedKey key) (operation : Operation)
    (hd : files.get (host.root ++ (keyPath key).dropLast) = some .directory) :
    host.resolveDestination files (host.location key) operation = .ok (host.location key) := by
  obtain ⟨name, hname⟩ := ObjectTree.exists_last hk
  have hlast : (host.location key).getLast? = some name := (getLast?_location hk).trans hname
  refine resolveDestination_eq_ok.mpr ⟨(host.location key).dropLast, name, hlast, ?_, ?_, host.root, ?_, ?_⟩
  · rw [dropLast_location hk]
    exact h.tree.canonicalize_of_get (FileSystem.plain_dropLast hk.plain) hd
  · exact (List.dropLast_append_getLast? name hlast).symm
  · exact h.tree.walked.canonicalize_self
  · rw [dropLast_location hk]
    exact List.prefix_append _ _

variable (host faults key options) in
/-- The names that are taken are passed over; one that is free is taken, or nothing is. -/
theorem allocateStage_cases (attempts : Nat) (files : FileSystem) (sequence : Nat) :
    let result := host.allocateStage faults options files sequence (host.location key) attempts
    (∃ n, result.1 = .ok (host.openedWriter key options n) ∧
      files.createNew (host.stagePath key n) = .ok result.2.1) ∨
    ∃ failure, result.1 = .error failure ∧ result.2.1 = files := by
  induction attempts generalizing sequence with
  | zero => exact Or.inr ⟨_, rfl, rfl⟩
  | succ attempts ih =>
    unfold allocateStage
    simp only
    cases hc : faults.attempt .createNew (files.createNew ((host.location key).dropLast ++
        [host.stageName ((host.location key).getLast?.getD "") sequence])) with
    | ok made => exact Or.inl ⟨sequence, rfl, (faults_attempt_eq_ok_iff.mp hc).2⟩
    | error kind =>
      cases kind with
      | alreadyExists => exact ih ((sequence + 1) % 2 ^ 64)
      | _ => exact Or.inr ⟨_, rfl, rfl⟩

theorem createNew_of_free (hk : AcceptedKey key) (hnone : files.get (host.stagePath key sequence) = none)
    (hd : files.get (host.root ++ (keyPath key).dropLast) = some .directory) :
    files.createNew (host.stagePath key sequence) = .ok (files.set (host.stagePath key sequence) (.file [])) := by
  have hparent : files.requireParent (host.stagePath key sequence) = .ok () := by
    rw [FileSystem.requireParent_eq_ok]
    unfold stagePath
    rw [List.dropLast_concat, dropLast_location hk]
    exact hd
  unfold FileSystem.createNew FileSystem.create
  rw [hparent, hnone]
  rfl

variable (faults sequence options) in
/-- An open makes directories and a staging file, or directories only. Without faults it fails only beneath an object,
and leaves the files as they are. -/
theorem storeOpenWriter_cases (hk : AcceptedKey key) (h : host.ObjectTree files) :
    let result := host.storeOpenWriter faults sequence options files key
    (∃ mid n, host.ObjectTree mid ∧ files.Grown mid (host.Parent key) ∧
      mid.get (host.root ++ (keyPath key).dropLast) = some .directory ∧
      mid.createNew (host.stagePath key n) = .ok result.2.1 ∧
      result.1 = .ok (host.openedWriter key options n)) ∨
    ∃ failure, result.1 = .error failure ∧ host.ObjectTree result.2.1 ∧
      files.Grown result.2.1 (host.Parent key) ∧ (faults = .never → host.Unstaged files → host.Free key →
        failure = .invalid .storeWriterOpen "local object parent must be a directory" ∧ result.2.1 = files ∧
          ∃ p content, p <+: (keyPath key).dropLast ∧ files.get (host.root ++ p) = some (.file content)) := by
  intro result
  have hroot : files.get (host.root ++ []) = some .directory := by
    rw [List.append_nil]
    exact h.tree.get_root
  have hwalk := ensureParents_walks faults key h (List.nil_append _) hroot
  rw [List.append_nil] at hwalk
  obtain ⟨htree, hgrown, hend⟩ := hwalk
  obtain ⟨reached, mid, hwalked⟩ : ∃ reached mid,
      ensureParents faults files host.root (keyPath key).dropLast = (reached, mid) := ⟨_, _, rfl⟩
  rw [hwalked] at htree hgrown hend
  rcases hend with ⟨hreached, hd⟩ | ⟨failure, hfailed, hnever⟩
  · simp only at hreached hd htree hgrown
    have hresult : result = host.stage faults sequence options mid key := by
      unfold result storeOpenWriter
      rw [hk.validateKey, hwalked, hreached]
    unfold stage at hresult
    rw [resolveDestination_of_parent htree hk .writerOpen hd] at hresult
    cases hcheck : faults.check .canonicalize .writerOpen with
    | error failure =>
      rw [hcheck] at hresult
      rw [hresult]
      refine Or.inr ⟨failure, rfl, htree, hgrown, ?_⟩
      rintro rfl
      cases hcheck
    | ok =>
      rw [hcheck] at hresult
      have hallocate : result = host.allocateStage faults options mid sequence (host.location key) 64 := hresult
      rcases allocateStage_cases host faults key options 64 mid sequence
        with ⟨n, hopened, hcreate⟩ | ⟨failure, hfailed, hsame⟩
      · rw [← hallocate] at hopened hcreate
        exact Or.inl ⟨mid, n, htree, hgrown, hd, hcreate, hopened⟩
      · rw [← hallocate] at hfailed hsame
        refine Or.inr ⟨failure, hfailed, by rw [hsame]; exact htree, by rw [hsame]; exact hgrown, ?_⟩
        rintro rfl hun hfree
        -- Without faults the first name is free.
        have hnone := (hun.grown hfree hgrown).stagePath hk sequence
        rw [hallocate] at hfailed
        unfold allocateStage at hfailed
        have hcreate := createNew_of_free hk hnone hd
        unfold stagePath at hcreate
        simp only [attempt_never, hcreate] at hfailed
        cases hfailed
  · simp only at hfailed htree hgrown hnever
    have hresult : result = (.error failure, mid, sequence) := by
      unfold result storeOpenWriter
      rw [hk.validateKey, hwalked, hfailed]
    rw [hresult]
    refine Or.inr ⟨failure, rfl, htree, hgrown, fun hf _ _ => ?_⟩
    obtain ⟨he, hsame, hfile⟩ := hnever hf
    exact ⟨he, hsame, hfile⟩

/-! ## Writing the chunks -/

section
variable (host : LocalHost) (w : LocalWriter) (mid files : FileSystem) (bytes : Bytes)

/-- The staging file of a writer stands beside files that are otherwise as they were. -/
structure Stages : Prop where
  tree : host.ObjectTree files
  own : files.get w.stagePath = some (.file bytes)
  rest : ∀ q, q ≠ w.stagePath → files.get q = mid.get q

/-- What a call leaves of the staging file when it does not publish it. -/
structure Leaves : Prop where
  tree : host.ObjectTree files
  rest : ∀ q, q ≠ w.stagePath → files.get q = mid.get q

end

variable {mid : FileSystem} {bytes chunk : Bytes}

theorem Stages.leaves (h : host.Stages w mid files bytes) : host.Leaves w mid files := ⟨h.tree, h.rest⟩

theorem Stages.append (h : host.Stages w mid files bytes) (more : Bytes) :
    host.Stages w mid (files.append w.stagePath more) (bytes ++ more) where
  tree := h.tree.append more
  own := FileSystem.get_append_self h.own
  rest q hq := by rw [FileSystem.get_append more hq, h.rest q hq]

theorem stages_of_createNew (hk : AcceptedKey key) (htree : host.ObjectTree mid)
    (hc : mid.createNew (host.stagePath key sequence) = .ok files) :
    host.Stages (host.openedWriter key options sequence) mid files [] where
  tree := by
    obtain ⟨k, hk', he⟩ := exists_stageKey hk sequence
    unfold stagePath at hc
    rw [he] at hc
    exact htree.createNew hk' hc
  own := by
    rw [FileSystem.get_create hc]
    exact if_pos rfl
  rest q hq := by
    rw [FileSystem.get_create hc]
    exact if_neg hq

variable (faults) in
/-- A write appends its chunk, or some bytes of it, to the staging file. -/
theorem write_cases (h : host.Stages w mid files bytes) (hopen : ∀ operation, w.ensureOpen operation = .ok ())
    (chunk : Bytes) :
    ((w.write faults files chunk).1 = .ok chunk.length ∧
      host.Stages w mid (w.write faults files chunk).2 (bytes ++ chunk)) ∨
    ∃ failure written, (w.write faults files chunk).1 = .error failure ∧
      host.Stages w mid (w.write faults files chunk).2 written ∧ faults ≠ .never := by
  unfold LocalWriter.write
  rw [hopen]
  simp only
  cases hw : faults.failure .writeAll with
  | some kind =>
    refine Or.inr ⟨_, _, rfl, h.append _, ?_⟩
    rintro rfl
    cases hw
  | none =>
    simp only
    cases hf : (if w.flush = .eachChunk then faults.failure .flush else none) with
    | some kind =>
      refine Or.inr ⟨_, _, rfl, h.append _, ?_⟩
      rintro rfl
      split at hf <;> cases hf
    | none => exact Or.inl ⟨rfl, h.append _⟩

end LocalHost

namespace LocalHost

variable {host : LocalHost} {files mid : FileSystem} {faults : Nat → Faults} {key : String} {w : LocalWriter}
  {bytes : Bytes} {maxRangeBytes : Nat}

variable (faults key maxRangeBytes) in
/-- The chunks are written as far as they go. -/
theorem writeAll_cases (hopen : ∀ operation, w.ensureOpen operation = .ok ()) (chunks : Chunks) (s : StoreDisk)
    (h : host.Stages w mid s.files bytes) :
    let result := (host.writableStore faults maxRangeBytes).writeAll s ⟨w, key⟩ chunks
    result.2.2 = ⟨w, key⟩ ∧
      ((∃ content, chunks.content = .ok content ∧ result.1 = .ok () ∧
          host.Stages w mid result.2.1.files (bytes ++ content)) ∨
        ∃ stop written, result.1 = .error stop ∧ host.Stages w mid result.2.1.files written ∧
          ((∀ n, faults n = .never) → chunks.content = .error stop)) := by
  induction chunks generalizing s bytes with
  | done => exact ⟨rfl, Or.inl ⟨[], rfl, rfl, by rw [List.append_nil]; exact h⟩⟩
  | raises undefined => cases undefined <;> exact ⟨rfl, Or.inr ⟨_, bytes, rfl, h, fun _ => rfl⟩⟩
  | next data rest ih =>
    cases data with
    | none => exact ⟨rfl, Or.inr ⟨_, bytes, rfl, h, fun _ => rfl⟩⟩
    | some chunk =>
      rw [WritableStore.writeAll]
      rcases write_cases (faults s.calls) h hopen chunk with
        ⟨hok, hstages⟩ | ⟨failure, written, herror, hstages, hfaults⟩
      · have hwrite : (host.writableStore faults maxRangeBytes).write s ⟨w, key⟩ (some chunk) =
            (.ok (), { s with files := (w.write (faults s.calls) s.files chunk).2, calls := s.calls + 1 },
              ⟨w, key⟩) := by
          simp only [WritableStore.write, writableStore, nativeWriters, hok]
          rfl
        rw [hwrite]
        obtain ⟨hwriter, hend⟩ := ih
          { s with files := (w.write (faults s.calls) s.files chunk).2, calls := s.calls + 1 } hstages
        refine ⟨hwriter, ?_⟩
        rcases hend with ⟨content, hcontent, hdone, hstages'⟩ | ⟨stop, written, hstop, hstages', hnever⟩
        · refine Or.inl ⟨chunk ++ content, ?_, hdone, ?_⟩
          · rw [Chunks.content, hcontent]
            rfl
          · rw [← List.append_assoc]
            exact hstages'
        · refine Or.inr ⟨stop, written, hstop, hstages', fun hf => ?_⟩
          rw [Chunks.content, hnever hf]
          rfl
      · have hwrite : (host.writableStore faults maxRangeBytes).write s ⟨w, key⟩ (some chunk) =
            (.error (.fromNative failure),
              { s with files := (w.write (faults s.calls) s.files chunk).2, calls := s.calls + 1 }, ⟨w, key⟩) := by
          simp only [WritableStore.write, writableStore, nativeWriters, herror]
          rfl
        rw [hwrite]
        exact ⟨rfl, Or.inr ⟨_, written, rfl, hstages, fun hf => absurd (hf _) hfaults⟩⟩

/-! ## Publishing and cancelling -/

/-- The staging file is at the destination, and nothing else has changed. -/
structure Publishes (host : LocalHost) (w : LocalWriter) (mid : FileSystem) (bytes : Bytes) (files : FileSystem) :
    Prop where
  tree : host.ObjectTree files
  get : ∀ q, files.get q = if q = w.destination then some (.file bytes) else if q = w.stagePath then none else mid.get q
  free : mid.get w.destination ≠ some .directory

section
variable {faults : Faults}

variable (faults) in
theorem Leaves.removeStage (h : host.Leaves w mid files) (hfile : files.get w.stagePath ≠ some .directory) :
    host.Leaves w mid (w.removeStage faults files) ∧
      (faults = .never → (w.removeStage faults files).get w.stagePath = none) := by
  refine ⟨⟨?_, fun q hq => ?_⟩, ?_⟩
  · unfold LocalWriter.removeStage
    cases hr : faults.attempt .removeStage (files.removeFile w.stagePath) with
    | error kind => exact h.tree
    | ok files' => exact h.tree.removeFile (faults_attempt_eq_ok_iff.mp hr).2
  · rw [LocalWriter.get_removeStage faults w files hq, h.rest q hq]
  · rintro rfl
    rw [LocalWriter.get_removeStage_eq_none]
    exact Or.inl ⟨rfl, hfile⟩

variable (faults) in
theorem Stages.abort (h : host.Stages w mid files bytes) (ha : w.active = true) :
    host.Leaves w mid (w.abort faults files).2.1 ∧
      (faults = .never → (w.abort faults files).2.1.get w.stagePath = none) := by
  have hremove := h.leaves.removeStage faults (by simp [h.own])
  have hfiles : (w.abort faults files).2.1 = w.removeStage faults files := by
    unfold LocalWriter.abort LocalWriter.removeStage
    rw [if_pos ha]
    have hstage : w.cancel.takeFile.stagePath = w.stagePath := rfl
    simp only [hstage]
    cases faults.attempt .removeStage (files.removeFile w.stagePath) with
    | ok files' => rfl
    | error kind => cases kind <;> rfl
  rw [hfiles]
  exact hremove

theorem abort_inactive (ha : w.active = false) : (w.abort faults files).2.1 = files := by
  unfold LocalWriter.abort
  rw [ha]
  rfl

variable (faults) in
theorem check_cases (call : SystemCall) (operation : Operation) {size : Nat} {rest : Except NativeFailure Nat}
    (hrest : rest = .ok size ∨ ∃ failure, rest = .error failure ∧ faults ≠ .never) :
    (do faults.check call operation; rest) = .ok size ∨
      ∃ failure, (do faults.check call operation; rest) = .error failure ∧ faults ≠ .never := by
  unfold Faults.check
  cases hf : faults.failure call with
  | none => exact hrest
  | some kind =>
    refine Or.inr ⟨_, rfl, ?_⟩
    rintro rfl
    cases hf

theorem prepare_cases (h : host.Stages w mid files bytes) {k : String} (hk : AcceptedKey k)
    (hstage : w.stagePath = host.location k) :
    w.prepare faults files = .ok bytes.length ∨
      ∃ failure, w.prepare faults files = .error failure ∧ faults ≠ .never := by
  have hsize : metadataFor files w.stagePath .writerPublish = .ok bytes.length := by
    have hown := h.own
    rw [hstage] at hown ⊢
    exact metadataFor_of_get (h.tree.tree.canonicalize_of_get hk.plain hown) hown
  unfold LocalWriter.prepare
  rw [hsize]
  have hstat := check_cases faults .metadata .writerPublish (Or.inl (rfl : Except.ok bytes.length = _))
  by_cases hf : w.flush = .none <;> by_cases hs : w.sync = .none <;>
    simp only [hf, hs, ne_eq, not_true_eq_false, not_false_eq_true, if_true, if_false]
  · exact hstat
  · exact check_cases faults .sync .writerPublish hstat
  · exact check_cases faults .flush .writerPublish hstat
  · exact check_cases faults .flush .writerPublish (check_cases faults .sync .writerPublish hstat)

/-- A file can be moved to any place in a directory that is none itself. -/
theorem rename_cases {source destination : Path} {content : Bytes} (hs : files.get source = some (.file content))
    (hd : files.get destination.dropLast = some .directory) :
    (files.get destination = some .directory ∧ files.rename source destination = .error .isADirectory) ∨
      (files.get destination ≠ some .directory ∧ ∃ files', files.rename source destination = .ok files') := by
  unfold FileSystem.rename
  rw [hs, FileSystem.requireParent_eq_ok.mpr hd]
  by_cases hdest : files.get destination = some .directory
  · exact Or.inl ⟨hdest, by simp [hdest, bind, Except.bind, throw, throwThe, MonadExceptOf.throw]⟩
  · exact Or.inr ⟨hdest, (files.unset source).set destination (.file content),
      by simp [hdest, bind, Except.bind, pure, Except.pure]⟩

theorem Stages.parent (h : host.Stages w mid files bytes) (hstaged : w.Staged host) (hk : AcceptedKey key)
    (hdest : w.destination = host.location key) : files.get w.destination.dropLast = some .directory := by
  obtain ⟨n, hn⟩ := hstaged
  have hown := h.own
  rw [hn, hdest, dropLast_location hk, List.append_assoc] at hown
  rw [hdest, dropLast_location hk]
  exact h.tree.tree.parents _ _ _ hown

/-- On Unix a replacement puts the file in its place or changes nothing, and on either platform it fails without
faults at a directory only. -/
theorem replaceFile_publishes (h : host.Stages w mid files bytes) (hstaged : w.Staged host) {k : String}
    (hk : AcceptedKey key) (hdest : w.destination = host.location key) (hstage : w.stagePath = host.location k)
    (hf : host.windows = false ∨ faults = .never) :
    (∃ files', host.replaceFile faults files w.stagePath w.destination = (.ok (), files') ∧
      host.Publishes w mid bytes files') ∨
    ∃ kind, host.replaceFile faults files w.stagePath w.destination = (.error kind, files) ∧
      (faults = .never → kind = .isADirectory ∧ mid.get w.destination = some .directory) := by
  have hrest : files.get w.destination = mid.get w.destination := h.rest _ hstaged.ne.symm
  have hparent := h.parent hstaged hk hdest
  -- The rename alone, also after the destination has gone.
  have hmove : ∀ files₁ : FileSystem, host.ObjectTree files₁ → files₁.get w.stagePath = some (.file bytes) →
      (∀ q, q ≠ w.stagePath → q ≠ w.destination → files₁.get q = mid.get q) →
      files₁.get w.destination.dropLast = some .directory →
      (mid.get w.destination = some .directory → files₁.get w.destination = some .directory) →
      (∃ files', moveFile faults files₁ w.stagePath w.destination = (.ok (), files') ∧
        host.Publishes w mid bytes files') ∨
      ∃ kind, moveFile faults files₁ w.stagePath w.destination = (.error kind, files₁) ∧
        (faults = .never → kind = .isADirectory ∧ files₁.get w.destination = some .directory) := by
    intro files₁ htree hown hothers hdir hkept
    unfold moveFile
    cases hr : faults.attempt .rename (files₁.rename w.stagePath w.destination) with
    | ok files' =>
      have hrename := (faults_attempt_eq_ok_iff.mp hr).2
      obtain ⟨_, -, -, hne, -⟩ := FileSystem.rename_eq_ok hrename
      refine Or.inl ⟨files', rfl, ?_, fun q => ?_, fun hd => hne (hkept hd)⟩
      · rw [hstage, hdest] at hrename
        exact htree.rename hk hrename
      · rw [FileSystem.get_rename hrename, hown]
        by_cases hq : q = w.destination
        · simp [hq]
        · by_cases hq' : q = w.stagePath
          · simp [hq']
          · simp [hq, hq', hothers q hq' hq]
    | error kind =>
      refine Or.inr ⟨kind, rfl, ?_⟩
      rintro rfl
      rw [attempt_never] at hr
      rcases rename_cases hown hdir with ⟨hd, he⟩ | ⟨-, files', hok⟩
      · rw [he] at hr
        cases hr
        exact ⟨rfl, hd⟩
      · rw [hok] at hr
        cases hr
  have hsame := hmove files h.tree h.own (fun q hq _ => h.rest q hq) hparent fun hd => by rw [hrest, hd]
  unfold replaceFile
  by_cases hw : host.windows = true
  · have hnever : faults = .never := hf.resolve_left (by simp [hw])
    subst hnever
    rw [if_pos hw, attempt_never]
    unfold FileSystem.removeFile
    cases hg : files.get w.destination with
    | none =>
      simp only
      rcases hsame with hok | ⟨kind, he, hnever⟩
      · exact Or.inl hok
      · exact Or.inr ⟨kind, he, fun _ => by rw [← hrest]; exact hnever rfl⟩
    | some entry =>
      cases entry with
      | directory => exact Or.inr ⟨_, rfl, fun _ => ⟨rfl, by rw [← hrest, hg]⟩⟩
      | symlink absolute target =>
        rw [hdest] at hg
        exact absurd hg (h.tree.tree.links _ _ _)
      | file content =>
        have hne : w.destination ≠ [] := by
          rw [hdest]
          unfold location
          simp [hk.keyPath_ne_nil]
        have hremove : files.removeFile w.destination = .ok (files.unset w.destination) := by
          unfold FileSystem.removeFile
          rw [hg]
        have hget := FileSystem.get_removeFile hremove
        have hmoved := hmove (files.unset w.destination) (h.tree.removeFile hremove)
          (by rw [hget, if_neg hstaged.ne, h.own])
          (fun q hq hq' => by rw [hget, if_neg hq', h.rest q hq])
          (by
            rw [hget, if_neg, hparent]
            intro he
            have := congrArg List.length he
            rw [List.length_dropLast] at this
            exact hne (List.eq_nil_of_length_eq_zero (by omega)))
          (fun hd => by rw [← hrest, hg] at hd; cases hd)
        rcases hmoved with hok | ⟨kind, -, hnever⟩
        · exact Or.inl hok
        · have hd := (hnever rfl).2
          rw [hget, if_pos rfl] at hd
          cases hd
  · rw [if_neg hw]
    rcases hsame with hok | ⟨kind, he, hnever⟩
    · exact Or.inl hok
    · exact Or.inr ⟨kind, he, fun hf => by rw [← hrest]; exact hnever hf⟩

/-- A publish puts the staged bytes in their place, or leaves every other file as it is. -/
theorem publish_cases (h : host.Stages w mid files bytes) (hopen : w.ensureOpen .writerPublish = .ok ())
    (hstaged : w.Staged host) {k : String} (hk : AcceptedKey key) (hdest : w.destination = host.location key)
    (hk' : AcceptedKey k) (hstage : w.stagePath = host.location k) (hsync : w.sync ≠ .all)
    (hf : host.windows = false ∨ faults = .never) :
    (w.publish host faults files).2.2.active = false ∧
      (((w.publish host faults files).1 = .ok bytes.length ∧
          host.Publishes w mid bytes (w.publish host faults files).2.1) ∨
        ∃ failure, (w.publish host faults files).1 = .error failure ∧
          host.Leaves w mid (w.publish host faults files).2.1 ∧ (faults = .never →
            (w.publish host faults files).2.1.get w.stagePath = none ∧
              failure = .fromIo .writerPublish .isADirectory ∧ mid.get w.destination = some .directory)) := by
  have hremove := h.leaves.removeStage faults (by simp [h.own])
  unfold LocalWriter.publish
  rw [hopen]
  simp only
  rcases prepare_cases h hk' hstage with hok | ⟨failure, herror, hnever⟩
  · rw [hok]
    simp only [LocalWriter.complete]
    rcases replaceFile_publishes h hstaged hk hdest hstage hf with ⟨files', hreplace, hpub⟩ | ⟨kind, hreplace, hnever⟩
    · rw [hreplace]
      simp only [LocalWriter.replaced, hsync, false_and, if_false]
      exact ⟨rfl, Or.inl ⟨trivial, hpub⟩⟩
    · rw [hreplace]
      refine ⟨rfl, Or.inr ⟨_, rfl, hremove.1, fun hf' => ⟨hremove.2 hf', ?_, (hnever hf').2⟩⟩⟩
      rw [(hnever hf').1]
  · rw [herror]
    exact ⟨rfl, Or.inr ⟨failure, rfl, hremove.1, fun hf' => absurd hf' hnever⟩⟩

end

/-! ## The whole put -/

def putOptions : WriteOptions := { flush := .beforePublish, sync := .none }

theorem openedWriter_staged (sequence : Nat) (options : WriteOptions) :
    (host.openedWriter key options sequence).Staged host := ⟨sequence, rfl⟩

/-- What a put does that has an answer. -/
structure PutDone (host : LocalHost) (files : FileSystem) (key : String) (content : Bytes) (files' : FileSystem) :
    Prop where
  tree : host.ObjectTree files'
  get : ∃ mid n, host.ObjectTree mid ∧ files.Grown mid (host.Parent key) ∧
    mid.get (host.root ++ (keyPath key).dropLast) = some .directory ∧ mid.get (host.stagePath key n) = none ∧
    mid.get (host.location key) ≠ some .directory ∧
    ∀ q, files'.get q = if q = host.location key then some (.file content) else
      if q = host.stagePath key n then none else mid.get q

/-- What a put leaves that fails: some directories, and perhaps a staging file. -/
structure PutFailed (host : LocalHost) (files : FileSystem) (key : String) (files' : FileSystem) : Prop where
  tree : host.ObjectTree files'
  get : ∃ mid n, files.Grown mid (host.Parent key) ∧ ∀ q, q ≠ host.stagePath key n → files'.get q = mid.get q

/-- Why a call that stores content fails when no system call does. -/
inductive Refused (host : LocalHost) (files : FileSystem) (key : String) (content : Except (Stop Error) Bytes)
    (occupied : NativeFailure) (files' : FileSystem) : Stop Error → Prop
  | beneath (p : Path) (above : Bytes) (hp : p <+: (keyPath key).dropLast)
      (hfile : files.get (host.root ++ p) = some (.file above)) (hsame : files' = files) :
      Refused host files key content occupied files'
        (.error (.fromNative (.invalid .storeWriterOpen "local object parent must be a directory")))
  | content (stop : Stop Error) (hgrown : files.Grown files' (host.Parent key))
      (hdir : files'.get (host.root ++ (keyPath key).dropLast) = some .directory) (hc : content = .error stop) :
      Refused host files key content occupied files' stop
  | directory (bytes : Bytes) (hgrown : files.Grown files' (host.Parent key))
      (hdir : files'.get (host.root ++ (keyPath key).dropLast) = some .directory) (hc : content = .ok bytes)
      (hd : files'.get (host.location key) = some .directory) :
      Refused host files key content occupied files' (.error (.fromNative occupied))

theorem Leaves.get_eq {n : Nat} {options : WriteOptions} (h : host.Leaves (host.openedWriter key options n) mid files)
    (hnone : files.get (host.stagePath key n) = none) (hmid : mid.get (host.stagePath key n) = none) (q : Path) :
    files.get q = mid.get q := by
  by_cases hq : q = host.stagePath key n
  · rw [hq, hnone, hmid]
  · exact h.rest q hq

section
variable (host faults maxRangeBytes)

theorem cancel_files (s : StoreDisk) (writer : StoreWriter LocalWriter) :
    ((host.writableStore faults maxRangeBytes).cancel s writer).2.1.files =
      (writer.resource.abort (faults s.calls) s.files).2.1 := rfl

theorem put_of_openWriter {s s' : StoreDisk} {writer : StoreWriter LocalWriter} (chunks : Chunks)
    (ho : (host.writableStore faults maxRangeBytes).openWriter s key = (.ok writer, s')) :
    (host.writableStore faults maxRangeBytes).put s key chunks =
      let finished := (host.writableStore faults maxRangeBytes).finishPut
        ((host.writableStore faults maxRangeBytes).writeAll s' writer chunks)
      (finished.1, ((host.writableStore faults maxRangeBytes).cancel finished.2.1 finished.2.2).2.1) := by
  unfold WritableStore.put
  rw [ho]

/-- The writer of a put is used up, whatever has come of its chunks. -/
theorem finishPut_cases (hk : AcceptedKey key) {n : Nat} (chunks : Chunks) (s : StoreDisk)
    (h : host.Stages (host.openedWriter key putOptions n) mid s.files [])
    (hf : host.windows = false ∨ ∀ n, faults n = .never) :
    let finished := (host.writableStore faults maxRangeBytes).finishPut
      ((host.writableStore faults maxRangeBytes).writeAll s ⟨host.openedWriter key putOptions n, key⟩ chunks)
    let files := ((host.writableStore faults maxRangeBytes).cancel finished.2.1 finished.2.2).2.1.files
    (∃ content, chunks.content = .ok content ∧ finished.1 = .ok { key, size := content.length } ∧
        host.Publishes (host.openedWriter key putOptions n) mid content files) ∨
      ∃ stop, finished.1 = .error stop ∧ host.Leaves (host.openedWriter key putOptions n) mid files ∧
        ((∀ n, faults n = .never) → files.get (host.stagePath key n) = none ∧ (chunks.content = .error stop ∨
          ∃ content, chunks.content = .ok content ∧ mid.get (host.location key) = some .directory ∧
            stop = .error (.fromNative (.fromIo .writerPublish .isADirectory)))) := by
  intro finished files
  obtain ⟨k, hk', hstage⟩ := @exists_stageKey host key hk n
  have hall := writeAll_cases faults key maxRangeBytes (fun _ => rfl) chunks s h
  have hfinished : finished = (host.writableStore faults maxRangeBytes).finishPut
      ((host.writableStore faults maxRangeBytes).writeAll s ⟨host.openedWriter key putOptions n, key⟩ chunks) := rfl
  have hfiles : files = (finished.2.2.resource.abort (faults finished.2.1.calls) finished.2.1.files).2.1 := rfl
  generalize (host.writableStore faults maxRangeBytes).writeAll s ⟨host.openedWriter key putOptions n, key⟩ chunks =
    written at hall hfinished
  obtain ⟨reply, s', writer⟩ := written
  obtain ⟨hwriter, ⟨content, hcontent, hdone, hstages⟩ | ⟨stop, bytes, hstop, hstages, hnever⟩⟩ := hall
  · simp only at hwriter hdone hstages
    subst hwriter hdone
    rw [List.nil_append] at hstages
    have hpublish : finished = (TimePartition.liftError (do
          let metadata ← Store.nativeResult (((host.openedWriter key putOptions n).publish host (faults s'.calls)
            s'.files).1 >>= host.localMetadata (host.location key))
          return Metadata.fromNative key metadata),
        { s' with
          files := ((host.openedWriter key putOptions n).publish host (faults s'.calls) s'.files).2.1
          calls := s'.calls + 1 },
        ⟨((host.openedWriter key putOptions n).publish host (faults s'.calls) s'.files).2.2, key⟩) := hfinished
    obtain ⟨hinactive, hend⟩ := publish_cases hstages rfl (openedWriter_staged n putOptions) hk rfl hk' hstage
      (by simp [openedWriter, putOptions]) (hf.imp id fun hf => hf s'.calls)
    have hsame : files = ((host.openedWriter key putOptions n).publish host (faults s'.calls) s'.files).2.1 := by
      rw [hfiles, hpublish]
      exact abort_inactive hinactive
    rcases hend with ⟨hok, hpub⟩ | ⟨failure, herror, hleaves, hnever⟩
    · refine Or.inl ⟨content, hcontent, ?_, by rw [hsame]; exact hpub⟩
      rw [hpublish, hok]
      simp only [bind, Except.bind, localMetadata_location]
      rfl
    · refine Or.inr ⟨.error (.fromNative failure), ?_, by rw [hsame]; exact hleaves, fun hf => ?_⟩
      · rw [hpublish, herror]
        rfl
      · obtain ⟨hgone, he, hd⟩ := hnever (hf _)
        exact ⟨by rw [hsame]; exact hgone, Or.inr ⟨content, hcontent, hd, by rw [he]⟩⟩
  · simp only at hwriter hstop hstages
    subst hwriter hstop
    obtain ⟨hleaves, hgone⟩ := hstages.abort (faults s'.calls) rfl
    have hsame : files = ((host.openedWriter key putOptions n).abort (faults s'.calls) s'.files).2.1 := by
      rw [hfiles, hfinished]
      rfl
    rw [hsame]
    refine Or.inr ⟨stop, by rw [hfinished]; rfl, hleaves, fun hf => ⟨hgone (hf _), Or.inl (hnever hf)⟩⟩

theorem put_cases (hk : AcceptedKey key) (chunks : Chunks) (s : StoreDisk) (h : host.ObjectTree s.files)
    (hf : host.windows = false ∨ ∀ n, faults n = .never) :
    let result := (host.writableStore faults maxRangeBytes).put s key chunks
    (∃ content, chunks.content = .ok content ∧ result.1 = .ok { key, size := content.length } ∧
        host.PutDone s.files key content result.2.files) ∨
      ∃ stop, result.1 = .error stop ∧ host.PutFailed s.files key result.2.files ∧
        ((∀ n, faults n = .never) → host.Unstaged s.files → host.Free key →
          host.Refused s.files key chunks.content (.fromIo .writerPublish .isADirectory) result.2.files stop) := by
  intro result
  have hopen := storeOpenWriter_cases (faults s.calls) putOptions s.stageSequence hk h
  have hput : (host.writableStore faults maxRangeBytes).openWriter s key =
      (do let resource ← Store.nativeResult
            (host.storeOpenWriter (faults s.calls) s.stageSequence putOptions s.files key).1
          return { resource, key },
        ⟨(host.storeOpenWriter (faults s.calls) s.stageSequence putOptions s.files key).2.1,
          (host.storeOpenWriter (faults s.calls) s.stageSequence putOptions s.files key).2.2, s.calls + 1⟩) := by
    unfold WritableStore.openWriter
    rw [show normalizeKey key = .ok key from hk]
    rfl
  generalize host.storeOpenWriter (faults s.calls) s.stageSequence putOptions s.files key = opened at hopen hput
  obtain ⟨reply, files, sequence⟩ := opened
  rcases hopen with ⟨mid, n, htree, hgrown, hdir, hcreate, hopened⟩ | ⟨failure, hfailed, htree, hgrown, hnever⟩
  · simp only at hcreate hopened
    subst hopened
    have hresult := put_of_openWriter host faults maxRangeBytes chunks hput
    have hfree : mid.get (host.stagePath key n) = none := (FileSystem.create_eq_ok hcreate).2.1
    rcases finishPut_cases host faults maxRangeBytes hk chunks ⟨files, sequence, s.calls + 1⟩
      (stages_of_createNew hk htree hcreate) hf with ⟨content, hcontent, hok, hpub⟩ | ⟨stop, hstop, hleaves, hnever⟩
    · refine Or.inl ⟨content, hcontent, ?_, ?_⟩
      · unfold result
        rw [hresult]
        exact hok
      · unfold result
        rw [hresult]
        exact ⟨hpub.tree, mid, n, htree, hgrown, hdir, hfree, hpub.free, hpub.get⟩
    · refine Or.inr ⟨stop, ?_, ?_, fun hf _ _ => ?_⟩
      · unfold result
        rw [hresult]
        exact hstop
      · unfold result
        rw [hresult]
        exact ⟨hleaves.tree, mid, n, hgrown, hleaves.rest⟩
      · obtain ⟨hgone, hwhy⟩ := hnever hf
        have heq := hleaves.get_eq hgone hfree
        have hfiles : s.files.Grown result.2.files (host.Parent key) := by
          intro q
          unfold result
          rw [hresult]
          simp only
          rw [heq q]
          exact hgrown q
        have hdir' : result.2.files.get (host.root ++ (keyPath key).dropLast) = some .directory := by
          unfold result
          rw [hresult]
          exact (heq _).trans hdir
        rcases hwhy with hc | ⟨content, hc, hd, rfl⟩
        · exact .content stop hfiles hdir' hc
        · refine .directory content hfiles hdir' hc ?_
          unfold result
          rw [hresult]
          exact (heq _).trans hd
  · simp only at hfailed htree hgrown hnever
    subst hfailed
    have hresult : result = (.error (.error (.fromNative failure)), ⟨files, sequence, s.calls + 1⟩) := by
      unfold result WritableStore.put
      rw [hput]
      rfl
    rw [hresult]
    refine Or.inr ⟨_, rfl, ⟨htree, files, 0, hgrown, fun _ _ => rfl⟩, fun hf hun hfree => ?_⟩
    obtain ⟨rfl, hsame, p, content, hp, hfile⟩ := hnever (hf _) hun hfree
    exact .beneath p content hp hfile hsame

end

end LocalHost

/-! ## The run of the system calls of an open -/

/-- The fault of the system call before which an open stands. -/
def Faults.nextOpen (faults : Faults) : OpenPhase → Option Fault
  | .lookup .. => faults.fault .metadata
  | .createDir .. => faults.fault .createDir
  | .resolve => faults.fault .canonicalize
  | .allocate .. => none
  | .create .. => faults.fault .createNew

/-- Make the next system call of an open until it returns. -/
def TaskStep.settleOpen (host : LocalHost) (faults : Faults) : Nat → TaskStep → TaskStep
  | n + 1, ⟨.running, files, stageSequence, .opening key options phase⟩ =>
    settleOpen host faults n (advanceOpen host files stageSequence (faults.nextOpen phase) key options phase)
  | _, step => step

/-- An open that has returned. -/
def openedStep (result : Except NativeFailure LocalWriter × FileSystem × Nat) : TaskStep :=
  match result.1 with
  | .ok w => ⟨.opened, result.2.1, result.2.2, .writer w .idle⟩
  | .error failure => ⟨.failed failure, result.2.1, result.2.2, .done⟩

section
variable (host : LocalHost) (faults : Faults) (key : String) (options : WriteOptions)

def Settles (step : TaskStep) (result : Except NativeFailure LocalWriter × FileSystem × Nat) : Prop :=
  ∃ n, step.settleOpen host faults n = openedStep result

variable {host faults key options} {files : FileSystem} {sequence : Nat}
  {result : Except NativeFailure LocalWriter × FileSystem × Nat}

theorem Settles.advance {phase : OpenPhase}
    (h : Settles host faults (advanceOpen host files sequence (faults.nextOpen phase) key options phase) result) :
    Settles host faults ⟨.running, files, sequence, .opening key options phase⟩ result := by
  obtain ⟨n, hn⟩ := h
  exact ⟨n + 1, hn⟩

variable (host faults key options) in
theorem settles_allocate (attempts : Nat) (files : FileSystem) (sequence : Nat) (destination : Path) :
    Settles host faults ⟨.running, files, sequence, .opening key options (.allocate destination attempts)⟩
      (host.allocateStage faults options files sequence destination (attempts + 1)) := by
  induction attempts generalizing sequence with
  | zero =>
    apply Settles.advance
    apply Settles.advance
    unfold LocalHost.allocateStage LocalHost.allocateStage
    simp only [advanceOpen, Faults.nextOpen, Faults.attempt_fault]
    cases faults.attempt .createNew (files.createNew (destination.dropLast ++
        [host.stageName (destination.getLast?.getD "") sequence])) with
    | ok files => exact ⟨0, rfl⟩
    | error kind => cases kind <;> exact ⟨0, rfl⟩
  | succ attempts ih =>
    apply Settles.advance
    apply Settles.advance
    rw [LocalHost.allocateStage]
    simp only [advanceOpen, Faults.nextOpen, Faults.attempt_fault]
    cases faults.attempt .createNew (files.createNew (destination.dropLast ++
        [host.stageName (destination.getLast?.getD "") sequence])) with
    | ok files => exact ⟨0, rfl⟩
    | error kind =>
      cases kind with
      | alreadyExists => exact ih _
      | _ => exact ⟨0, rfl⟩

theorem settles_resolve :
    Settles host faults ⟨.running, files, sequence, .opening key options .resolve⟩
      (host.stage faults sequence options files key) := by
  apply Settles.advance
  unfold LocalHost.stage Faults.check
  simp only [advanceOpen, Faults.nextOpen, Faults.faultOf_fault]
  cases faults.failure .canonicalize with
  | some kind => exact ⟨0, rfl⟩
  | none =>
    simp only [bind, Except.bind]
    cases host.resolveDestination files (host.location key) .writerOpen with
    | error failure => exact ⟨0, rfl⟩
    | ok destination => exact settles_allocate host faults key options 63 files sequence destination

/-- What follows the walk down to the parent. -/
def LocalHost.stageAfter (host : LocalHost) (faults : Faults) (key : String) (options : WriteOptions) (sequence : Nat)
    (walked : Except NativeFailure Unit × FileSystem) : Except NativeFailure LocalWriter × FileSystem × Nat :=
  match walked with
  | (.error failure, files) => (.error failure, files, sequence)
  | (.ok (), files) => host.stage faults sequence options files key

theorem settles_parents (left : Path) (files : FileSystem) (current : Path) :
    Settles host faults ⟨.running, files, sequence, .opening key options (.parents current left)⟩
      (host.stageAfter faults key options sequence (LocalHost.ensureParents faults files current left)) := by
  induction left generalizing files current with
  | nil => exact settles_resolve
  | cons name left ih =>
    rw [OpenPhase.parents]
    apply Settles.advance
    unfold LocalHost.ensureParents
    simp only [advanceOpen, Faults.nextOpen, Faults.attempt_fault]
    cases faults.attempt .metadata ((files.get (current ++ [name])).elim (.error .notFound) .ok) with
    | ok entry =>
      cases entry with
      | directory => exact ih files (current ++ [name])
      | _ => exact ⟨0, rfl⟩
    | error kind =>
      cases kind with
      | notFound =>
        apply Settles.advance
        simp only [advanceOpen, Faults.nextOpen, Faults.attempt_fault]
        cases faults.attempt .createDir (files.createDir (current ++ [name])) with
        | ok made => exact ih made (current ++ [name])
        | error kind => exact ⟨0, rfl⟩
      | _ => exact ⟨0, rfl⟩

/-- The run of the system calls of an open computes the whole call. -/
theorem settle_open (hk : AcceptedKey key) :
    Settles host faults (beginOpen host files sequence key options)
      (host.storeOpenWriter faults sequence options files key) := by
  unfold beginOpen LocalHost.storeOpenWriter
  rw [show normalizeKey key = .ok key from hk]
  simp only [hk.validateKey]
  change Settles host faults
    ⟨.running, files, sequence, .opening key options (.parents host.root (keyPath key).dropLast)⟩
    (host.stageAfter faults key options sequence
      (LocalHost.ensureParents faults files host.root (keyPath key).dropLast))
  exact settles_parents _ files host.root

end

end Parquex
