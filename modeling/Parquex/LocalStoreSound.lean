import Parquex.Fallible
import Parquex.LocalStore

/-!
# Local publication

A store that is only written through its writers behaves as a map from keys to
contents: a successful publish replaces the content of one key by the chunks that
its writer accepted, a successful delete removes one key, and nothing else
changes a key. Beside the objects there is one staging file for each active
writer.
-/

namespace Parquex

/-! ## The map that the store is to be -/

/-- What the callers of a store know: the contents, and what each task was asked. -/
structure Ledger where
  contents : String → Option Bytes
  key : Nat → String
  chunk : Nat → Bytes
  accepted : Nat → Bytes

namespace Ledger

def first (contents : String → Option Bytes) : Ledger := ⟨contents, fun _ => "", fun _ => [], fun _ => []⟩

def begin (l : Ledger) (event : StoreEvent) : Ledger :=
  match event.action with
  | .openWriter key _ => { l with key := Function.update l.key event.task key }
  | .delete key => { l with key := Function.update l.key event.task key }
  | .write chunk => { l with chunk := Function.update l.chunk event.task chunk }
  | _ => l

def settle (l : Ledger) (task : Nat) : StoreReply → Ledger
  | .written _ => { l with accepted := Function.update l.accepted task (l.accepted task ++ l.chunk task) }
  | .published _ => { l with contents := Function.update l.contents (l.key task) (some (l.accepted task)) }
  | .deleted => { l with contents := Function.update l.contents (l.key task) none }
  | _ => l

def observe (l : Ledger) (entry : StoreEvent × StoreReply) : Ledger :=
  match entry.2 with
  | .blocked => l
  | reply => (l.begin entry.1).settle entry.1.task reply

def after (l : Ledger) (history : List (StoreEvent × StoreReply)) : Ledger := history.foldl observe l

theorem after_concat (l : Ledger) (history : List (StoreEvent × StoreReply)) (entry : StoreEvent × StoreReply) :
    l.after (history ++ [entry]) = (l.after history).observe entry := by
  simp only [after, List.foldl_append, List.foldl_cons, List.foldl_nil]

theorem begin_other (l : Ledger) (event : StoreEvent) {v : Nat} (hv : v ≠ event.task) :
    (l.begin event).key v = l.key v ∧ (l.begin event).chunk v = l.chunk v ∧
      (l.begin event).accepted v = l.accepted v := by
  unfold begin
  split <;> simp [Function.update_of_ne hv]

theorem settle_other (l : Ledger) (task : Nat) (reply : StoreReply) {v : Nat} (hv : v ≠ task) :
    (l.settle task reply).key v = l.key v ∧ (l.settle task reply).chunk v = l.chunk v ∧
      (l.settle task reply).accepted v = l.accepted v := by
  cases reply <;> simp [settle, Function.update_of_ne hv]

/-- A step of one task tells nothing about the others. -/
theorem observe_other (l : Ledger) (entry : StoreEvent × StoreReply) {v : Nat} (hv : v ≠ entry.1.task) :
    (l.observe entry).key v = l.key v ∧ (l.observe entry).chunk v = l.chunk v ∧
      (l.observe entry).accepted v = l.accepted v := by
  unfold observe
  split
  · exact ⟨rfl, rfl, rfl⟩
  · obtain ⟨h₁, h₂, h₃⟩ := settle_other (l.begin entry.1) entry.1.task entry.2 hv
    obtain ⟨b₁, b₂, b₃⟩ := l.begin_other entry.1 hv
    exact ⟨h₁.trans b₁, h₂.trans b₂, h₃.trans b₃⟩

theorem observe_contents (l : Ledger) (event : StoreEvent) {reply : StoreReply}
    (hp : ∀ metadata, reply ≠ .published metadata) (hd : reply ≠ .deleted) :
    (l.observe (event, reply)).contents = l.contents := by
  have hb : (l.begin event).contents = l.contents := by
    unfold begin
    split <;> rfl
  cases reply with
  | published metadata => exact absurd rfl (hp metadata)
  | deleted => exact absurd rfl hd
  | blocked => rfl
  | _ => exact hb

end Ledger

/-! ## Staging paths -/

namespace LocalHost

variable (host : LocalHost)

/-- The last name has the form of a staging file. -/
def ReservedPath (p : Path) : Prop := ∃ fileName sequence, p.getLast? = some (host.stageName fileName sequence)

def Reserved (key : String) : Prop := host.ReservedPath (keyPath key)

/-- A key that callers may use. -/
structure ObjectKey (key : String) : Prop where
  accepted : AcceptedKey key
  unreserved : ¬ host.Reserved key

variable {host}

theorem getLast?_location {key : String} (hk : AcceptedKey key) :
    (host.location key).getLast? = (keyPath key).getLast? := by
  unfold location
  exact List.getLast?_append_of_ne_nil _ hk.keyPath_ne_nil

theorem ObjectKey.location_ne {key : String} (hk : host.ObjectKey key) {p : Path} (hp : host.ReservedPath p) :
    host.location key ≠ p := by
  intro he
  refine hk.unreserved ?_
  unfold Reserved ReservedPath
  rw [← getLast?_location hk.accepted, he]
  exact hp

theorem location_inj {k l : String} (hk : AcceptedKey k) (hl : AcceptedKey l)
    (h : host.location k = host.location l) : k = l :=
  hk.keyPath_inj hl (List.append_cancel_left h)

theorem reservedPath_stage (directory : Path) (fileName : String) (sequence : Nat) :
    host.ReservedPath (directory ++ [host.stageName fileName sequence]) :=
  ⟨fileName, sequence, by simp⟩

theorem location_plain (hroot : FileSystem.Plain host.root) {key : String} (hk : AcceptedKey key) :
    FileSystem.Plain (host.location key) :=
  FileSystem.plain_append hroot hk.plain

section
variable {files : FileSystem} {path p q : Path} {operation : Operation}

theorem enforceAllowedRoot_eq_ok : host.enforceAllowedRoot files path operation = .ok () ↔
    ∃ root, files.canonicalize host.root = .ok root ∧ root <+: path := by
  unfold enforceAllowedRoot
  cases hc : files.canonicalize host.root with
  | error kind => simp
  | ok root =>
    by_cases hp : root <+: path
    · simp [List.isPrefixOf_iff_prefix.mpr hp, hp]
    · simp [hp]

theorem resolveExisting_eq_ok : host.resolveExisting files p operation = .ok q ↔
    files.canonicalize p = .ok q ∧ ∃ root, files.canonicalize host.root = .ok root ∧ root <+: q := by
  unfold resolveExisting
  cases hc : files.canonicalize p with
  | error kind => simp
  | ok canonical =>
    simp only [except_bind_eq_ok, pure, Except.pure, Except.ok.injEq]
    constructor
    · rintro ⟨_, hroot, rfl⟩
      exact ⟨rfl, enforceAllowedRoot_eq_ok.mp hroot⟩
    · rintro ⟨rfl, hroot⟩
      exact ⟨(), enforceAllowedRoot_eq_ok.mpr hroot, rfl⟩

theorem resolveDestination_eq_ok : host.resolveDestination files p operation = .ok q ↔
    ∃ parent name, p.getLast? = some name ∧ files.canonicalize p.dropLast = .ok parent ∧ q = parent ++ [name] ∧
      ∃ root, files.canonicalize host.root = .ok root ∧ root <+: parent := by
  unfold resolveDestination
  cases hn : p.getLast? with
  | none => simp
  | some name =>
    cases hc : files.canonicalize p.dropLast with
    | error kind => simp
    | ok canonical =>
      simp only [except_bind_eq_ok, pure, Except.pure, Except.ok.injEq]
      constructor
      · rintro ⟨_, hroot, rfl⟩
        exact ⟨canonical, name, rfl, rfl, rfl, enforceAllowedRoot_eq_ok.mp hroot⟩
      · rintro ⟨parent, last, hlast, hparent, rfl, hroot⟩
        cases hlast
        cases hparent
        exact ⟨(), enforceAllowedRoot_eq_ok.mpr hroot, rfl⟩

theorem resolveExisting_eq (hl : files.NoLinks) (hp : FileSystem.Plain path)
    (h : host.resolveExisting files path operation = .ok p) : p = path :=
  FileSystem.canonicalize_plain hl hp (resolveExisting_eq_ok.mp h).1

theorem resolveDestination_eq (hl : files.NoLinks) (hp : FileSystem.Plain path)
    (h : host.resolveDestination files path operation = .ok p) : p = path := by
  obtain ⟨parent, name, hn, hc, rfl, -⟩ := resolveDestination_eq_ok.mp h
  rw [FileSystem.canonicalize_plain hl (FileSystem.plain_dropLast hp) hc]
  exact List.dropLast_append_getLast? name hn

end

theorem localMetadata_location (key : String) (size : Nat) :
    host.localMetadata (host.location key) size = .ok { path := joinSlash (keyPath key), size } := by
  unfold localMetadata location
  rw [if_pos (by simp [List.isPrefixOf_iff_prefix]), List.drop_left]

end LocalHost

theorem openLocal_plain {fs : FileSystem} {path root : Path} (h : openLocal fs path = .ok root) (hl : fs.NoLinks) :
    FileSystem.Plain root := by
  unfold openLocal at h
  cases hc : fs.canonicalize path with
  | error kind => rw [hc] at h; cases h
  | ok p =>
    rw [hc] at h
    simp only at h
    split at h
    · rw [← Except.ok.inj h]
      exact FileSystem.plain_of_walk (fun name hn => by cases hn) ((FileSystem.canonicalize_eq_ok hl).mp hc)
    · cases h

/-! ## The invariant -/

/-- The staging file that a task owns. -/
def Task.stage? : Task → Option Path
  | .writer w _ => if w.active then some w.stagePath else none
  | _ => none

def LocalWriter.PhaseInv (chunk : Bytes) : WriterPhase → Prop
  | .writing c => c = chunk
  | .replacing _ | .syncingParent _ => False
  | _ => True

section
variable (host : LocalHost) (initial : FileSystem) (l : Ledger) (files : FileSystem)

structure LocalWriter.Inv (task : Nat) (w : LocalWriter) (phase : WriterPhase) : Prop where
  object : host.ObjectKey (l.key task)
  destination : w.destination = host.location (l.key task)
  sync : w.sync ≠ .all
  reserved : host.ReservedPath w.stagePath
  new : initial.content w.stagePath = none
  staged : w.active = true → files.content w.stagePath = some (l.accepted task)
  running : phase ≠ .idle → w.active = true
  phase : PhaseInv (l.chunk task) phase

def OpenPhase.Inv (key : String) : OpenPhase → Prop
  | .allocate destination _ => destination = host.location key
  | .create destination stagePath _ => destination = host.location key ∧ host.ReservedPath stagePath
  | _ => True

def DeletePhase.Inv (key : String) : DeletePhase → Prop
  | .resolve k => k = key
  | .remove path => path = host.location key

def Task.Inv (task : Nat) : Task → Prop
  | .absent => l.accepted task = []
  | .opening key options phase =>
    l.key task = key ∧ host.ObjectKey key ∧ options.sync ≠ .all ∧ l.accepted task = [] ∧ phase.Inv host key
  | .writer w phase => w.Inv host initial l files task phase
  | .deleting phase => host.ObjectKey (l.key task) ∧ phase.Inv host (l.key task)
  | .done => True

structure LocalState.Inv (s : LocalState) : Prop where
  links : s.files.NoLinks
  contents : ∀ key, host.ObjectKey key → s.files.content (host.location key) = l.contents key
  tasks : ∀ task, (s.tasks task).Inv host initial l s.files task
  distinct : ∀ v w p, (s.tasks v).stage? = some p → (s.tasks w).stage? = some p → v = w
  unowned : ∀ p, host.ReservedPath p → (∀ w, (s.tasks w).stage? ≠ some p) → s.files.content p = initial.content p

/-- What a step of one task may do to the files and to that task. -/
structure Task.Keeps (l' : Ledger) (files' : FileSystem) (task : Nat) (old new : Task) : Prop where
  links : files'.NoLinks
  contents : ∀ key, host.ObjectKey key → files'.content (host.location key) = l'.contents key
  self : new.Inv host initial l' files' task
  frame : ∀ p, host.ReservedPath p → old.stage? ≠ some p → new.stage? ≠ some p → files'.content p = files.content p
  fresh : ∀ p, new.stage? = some p → old.stage? = some p ∨ (host.ReservedPath p ∧ files.content p = none)
  released : ∀ p, old.stage? = some p → new.stage? = some p ∨ files'.content p = none

end

section
variable {host : LocalHost} {initial : FileSystem} {l l' : Ledger} {s : LocalState} {files' : FileSystem} {task : Nat}
  {new : Task}

theorem LocalState.Inv.stage (h : s.Inv host initial l) {p : Path} (hp : (s.tasks task).stage? = some p) :
    host.ReservedPath p ∧ initial.content p = none ∧ s.files.content p = some (l.accepted task) := by
  have ht := h.tasks task
  cases hs : s.tasks task with
  | writer w phase =>
    rw [hs] at hp ht
    simp only [Task.stage?] at hp
    split at hp
    · rename_i ha
      cases hp
      exact ⟨ht.reserved, ht.new, ht.staged ha⟩
    · cases hp
  | _ => rw [hs] at hp; cases hp

/-- The other tasks do not notice. -/
theorem Task.Inv.other {t : Task} (h : t.Inv host initial l s.files task)
    (hl : l'.key task = l.key task ∧ l'.chunk task = l.chunk task ∧ l'.accepted task = l.accepted task)
    (hf : ∀ p, t.stage? = some p → files'.content p = s.files.content p) : t.Inv host initial l' files' task := by
  obtain ⟨hk, hc, ha⟩ := hl
  cases t with
  | absent => exact ha.trans h
  | opening key options phase =>
    obtain ⟨h₁, h₂, h₃, h₄, h₅⟩ := h
    exact ⟨hk.trans h₁, h₂, h₃, ha.trans h₄, h₅⟩
  | writer w phase =>
    refine ⟨by rw [hk]; exact h.object, by rw [hk]; exact h.destination, h.sync, h.reserved, h.new, ?_, h.running,
      by rw [hc]; exact h.phase⟩
    intro hactive
    rw [hf w.stagePath (by simp only [Task.stage?, hactive, if_true]), ha]
    exact h.staged hactive
  | deleting phase =>
    change host.ObjectKey (l'.key task) ∧ phase.Inv host (l'.key task)
    rw [hk]
    exact h
  | done => trivial

theorem LocalState.Inv.step (h : s.Inv host initial l) (stageSequence : Nat)
    (hl : ∀ v, v ≠ task → l'.key v = l.key v ∧ l'.chunk v = l.chunk v ∧ l'.accepted v = l.accepted v)
    (hk : Task.Keeps host initial s.files l' files' task (s.tasks task) new) :
    LocalState.Inv host initial l' ⟨files', stageSequence, Function.update s.tasks task new⟩ := by
  have hother : ∀ v p, v ≠ task → (s.tasks v).stage? = some p → new.stage? ≠ some p := by
    intro v p hv hp hn
    rcases hk.fresh p hn with ho | ⟨-, hc⟩
    · exact hv (h.distinct v task p hp ho)
    · rw [(h.stage hp).2.2] at hc
      cases hc
  refine ⟨hk.links, hk.contents, ?_, ?_, ?_⟩
  · intro v
    by_cases hv : v = task
    · simp only [hv, Function.update_self]
      exact hk.self
    · simp only [Function.update_of_ne hv]
      refine (h.tasks v).other (hl v hv) ?_
      intro p hp
      exact hk.frame p (h.stage hp).1 (fun ho => hv (h.distinct v task p hp ho)) (hother v p hv hp)
  · intro v w p hv hw
    simp only at hv hw
    by_cases hvt : v = task
    · by_cases hwt : w = task
      · rw [hvt, hwt]
      · rw [hvt, Function.update_self] at hv
        rw [Function.update_of_ne hwt] at hw
        exact absurd hv (hother w p hwt hw)
    · rw [Function.update_of_ne hvt] at hv
      by_cases hwt : w = task
      · rw [hwt, Function.update_self] at hw
        exact absurd hw (hother v p hvt hv)
      · rw [Function.update_of_ne hwt] at hw
        exact h.distinct v w p hv hw
  · intro p hp hn
    have hnew : new.stage? ≠ some p := by
      have := hn task
      simpa only [Function.update_self] using this
    by_cases ho : (s.tasks task).stage? = some p
    · rcases hk.released p ho with hr | hr
      · exact absurd hr hnew
      · exact hr.trans (h.stage ho).2.1.symm
    · refine (hk.frame p hp ho hnew).trans (h.unowned p hp fun w hw => ?_)
      by_cases hwt : w = task
      · exact ho (by rw [← hwt]; exact hw)
      · have := hn w
        simp only [Function.update_of_ne hwt] at this
        exact this hw

/-! ## What each call keeps -/

/-- A step that leaves the contents of all files. -/
theorem LocalState.Inv.quiet (h : s.Inv host initial l) (hlinks : files'.NoLinks)
    (hfiles : ∀ p, files'.content p = s.files.content p) (hcontents : l'.contents = l.contents)
    (hself : new.Inv host initial l' files' task) (hstage : new.stage? = (s.tasks task).stage?) :
    Task.Keeps host initial s.files l' files' task (s.tasks task) new where
  links := hlinks
  contents := fun key hk => by rw [hfiles, hcontents, h.contents key hk]
  self := hself
  frame := fun p _ _ _ => hfiles p
  fresh := fun p hp => Or.inl (by rw [← hstage]; exact hp)
  released := fun p hp => Or.inl (by rw [hstage]; exact hp)

/-- A step that removes the staging file of its writer. -/
theorem LocalState.Inv.unstaged (h : s.Inv host initial l) {p : Path} (hs : (s.tasks task).stage? = some p)
    (hremove : s.files.removeFile p = .ok files') (hcontents : l'.contents = l.contents)
    (hself : new.Inv host initial l' files' task) (hstage : new.stage? = none) :
    Task.Keeps host initial s.files l' files' task (s.tasks task) new where
  links := h.links.removeFile hremove
  contents := fun key hk => by
    rw [FileSystem.content_removeFile hremove, if_neg (hk.location_ne (h.stage hs).1), hcontents, h.contents key hk]
  self := hself
  frame := fun q _ ho _ => by
    rw [FileSystem.content_removeFile hremove, if_neg (fun hq => ho (by rw [hs, hq]))]
  fresh := fun q hq => by rw [hstage] at hq; cases hq
  released := fun q hq => Or.inr (by
    rw [hs] at hq
    rw [FileSystem.content_removeFile hremove, if_pos (Option.some.inj hq).symm])

end

/-! ## What each call keeps -/

/-- The step of a task keeps the invariant. -/
def StepKeeps (host : LocalHost) (initial : FileSystem) (l : Ledger) (s : LocalState) (event : StoreEvent)
    (r : TaskStep) : Prop :=
  Task.Keeps host initial s.files (l.observe (event, r.reply)) r.files event.task (s.tasks event.task) r.task

section
variable {host : LocalHost} {initial : FileSystem} {l : Ledger} {s : LocalState} {task : Nat} {fault : Option Fault}
  {key : String} {options : WriteOptions}

theorem OpenPhase.parents_inv (current left : Path) : (OpenPhase.parents current left).Inv host key := by
  cases left <;> trivial

theorem beginOpen_keeps (h : s.Inv host initial l) (hs : s.tasks task = .absent) (hk : ¬ host.Reserved key)
    (hsync : options.sync ≠ .all) :
    StepKeeps host initial l s ⟨task, .openWriter key options, fault⟩
      (beginOpen host s.files s.stageSequence key options) := by
  have ht := h.tasks task
  rw [hs] at ht
  unfold beginOpen
  cases hn : normalizeKey key with
  | error error => exact h.quiet h.links (fun _ => rfl) rfl trivial (by rw [hs]; rfl)
  | ok k =>
    obtain ⟨rfl, hacc⟩ := normalizeKey_eq_ok hn
    simp only [hacc.validateKey]
    refine h.quiet h.links (fun _ => rfl) rfl ?_ (by rw [hs]; rfl)
    exact ⟨Function.update_self .., ⟨hacc, hk⟩, hsync, ht, OpenPhase.parents_inv _ _⟩

theorem beginDelete_keeps (h : s.Inv host initial l) (hs : s.tasks task = .absent) (hk : ¬ host.Reserved key) :
    StepKeeps host initial l s ⟨task, .delete key, fault⟩ (beginDelete s.files s.stageSequence key) := by
  unfold beginDelete
  cases hn : normalizeKey key with
  | error error => exact h.quiet h.links (fun _ => rfl) rfl trivial (by rw [hs]; rfl)
  | ok k =>
    obtain ⟨rfl, hacc⟩ := normalizeKey_eq_ok hn
    simp only [hacc.validateKey]
    refine h.quiet h.links (fun _ => rfl) rfl ?_ (by rw [hs]; rfl)
    have hkey : (l.begin ⟨task, .delete k, fault⟩).key task = k := Function.update_self ..
    refine ⟨?_, hkey.symm⟩
    change host.ObjectKey ((l.begin ⟨task, .delete k, fault⟩).key task)
    rw [hkey]
    exact ⟨hacc, hk⟩

theorem attempt_eq_ok_iff {α : Type} {call : SystemCall} {result : Except IoErrorKind α} {a : α} :
    attempt fault call result = .ok a ↔ faultOf fault call = none ∧ result = .ok a := by
  unfold attempt
  cases faultOf fault call <;> simp

theorem attempt_eq_ok {α : Type} {call : SystemCall} {result : Except IoErrorKind α} {a : α}
    (h : attempt fault call result = .ok a) : result = .ok a := (attempt_eq_ok_iff.mp h).2

theorem advanceOpen_keeps (hroot : FileSystem.Plain host.root) (h : s.Inv host initial l) {phase : OpenPhase}
    (hs : s.tasks task = .opening key options phase) :
    StepKeeps host initial l s ⟨task, .advance, fault⟩
      (advanceOpen host s.files s.stageSequence fault key options phase) := by
  have hstage : (s.tasks task).stage? = none := by rw [hs]; rfl
  have ht := h.tasks task
  rw [hs] at ht
  obtain ⟨hkey, hobj, hsync, hacc, hph⟩ := ht
  have hdone : ∀ failure stageSequence,
      StepKeeps host initial l s ⟨task, .advance, fault⟩ ⟨.failed failure, s.files, stageSequence, .done⟩ :=
    fun failure stageSequence => h.quiet h.links (fun _ => rfl) rfl trivial hstage.symm
  have hnext : ∀ phase' stageSequence, phase'.Inv host key → StepKeeps host initial l s ⟨task, .advance, fault⟩
      ⟨.running, s.files, stageSequence, .opening key options phase'⟩ := fun phase' stageSequence hp =>
    h.quiet h.links (fun _ => rfl) rfl ⟨hkey, hobj, hsync, hacc, hp⟩ hstage.symm
  cases phase with
  | lookup current left =>
    simp only [advanceOpen]
    split
    · exact hdone _ _
    · exact hdone _ _
    · exact hnext _ _ (OpenPhase.parents_inv _ _)
    · exact hnext _ _ trivial
    · exact hdone _ _
  | createDir current left =>
    simp only [advanceOpen]
    cases hc : attempt fault .createDir (s.files.createDir current) with
    | error kind => exact hdone _ _
    | ok files' =>
      have hd := attempt_eq_ok hc
      exact h.quiet (h.links.createDir hd) (FileSystem.content_createDir hd) rfl
        ⟨hkey, hobj, hsync, hacc, OpenPhase.parents_inv _ _⟩ hstage.symm
  | resolve =>
    simp only [advanceOpen]
    split
    · exact hdone _ _
    · cases hr : host.resolveDestination s.files (host.location key) .writerOpen with
      | error failure => exact hdone _ _
      | ok destination =>
        exact hnext _ _ (LocalHost.resolveDestination_eq h.links (LocalHost.location_plain hroot hobj.accepted) hr)
  | allocate destination attempts => exact hnext _ _ ⟨hph, LocalHost.reservedPath_stage _ _ _⟩
  | create destination stagePath attempts =>
    simp only [advanceOpen]
    cases hc : attempt fault .createNew (s.files.createNew stagePath) with
    | error kind =>
      cases kind with
      | alreadyExists =>
        cases attempts with
        | zero => exact hdone _ _
        | succ attempts => exact hnext _ _ hph.1
      | _ => exact hdone _ _
    | ok files' =>
      have hn := attempt_eq_ok hc
      have hnone : s.files.content stagePath = none := FileSystem.content_of_get_none (FileSystem.create_eq_ok hn).2.1
      have hinitial : initial.content stagePath = none := by
        rw [← h.unowned stagePath hph.2, hnone]
        intro w hw
        rw [(h.stage hw).2.2] at hnone
        cases hnone
      refine ⟨h.links.createNew hn, ?_, ?_, ?_, ?_, ?_⟩
      · intro k hk
        rw [FileSystem.content_createNew hn, if_neg (hk.location_ne hph.2)]
        exact h.contents k hk
      · refine ⟨by rw [← hkey] at hobj; exact hobj, by rw [← hkey] at hph; exact hph.1, hsync, hph.2, hinitial, ?_,
          fun _ => rfl, trivial⟩
        intro _
        rw [FileSystem.content_createNew hn, if_pos rfl]
        exact congrArg some hacc.symm
      · intro p _ _ hp
        rw [FileSystem.content_createNew hn, if_neg (fun he => hp (by rw [he]; rfl))]
      · intro p hp
        cases hp
        exact Or.inr ⟨hph.2, hnone⟩
      · intro p hp
        rw [hstage] at hp
        cases hp

theorem advanceDelete_keeps (hroot : FileSystem.Plain host.root) (h : s.Inv host initial l) {phase : DeletePhase}
    (hs : s.tasks task = .deleting phase) :
    StepKeeps host initial l s ⟨task, .advance, fault⟩ (advanceDelete host s.files s.stageSequence fault phase) := by
  have hstage : (s.tasks task).stage? = none := by rw [hs]; rfl
  have ht := h.tasks task
  rw [hs] at ht
  obtain ⟨hobj, hph⟩ := ht
  have hdone : ∀ failure, StepKeeps host initial l s ⟨task, .advance, fault⟩
      ⟨.failed failure, s.files, s.stageSequence, .done⟩ :=
    fun failure => h.quiet h.links (fun _ => rfl) rfl trivial hstage.symm
  cases phase with
  | resolve k =>
    simp only [advanceDelete]
    split
    · exact hdone _
    · cases hr : host.resolveExisting s.files (host.location k) .delete with
      | error failure => exact hdone _
      | ok path =>
        have hk : k = l.key task := hph
        rw [hk] at hr
        refine h.quiet h.links (fun _ => rfl) rfl ⟨hobj, ?_⟩ hstage.symm
        exact LocalHost.resolveExisting_eq h.links (LocalHost.location_plain hroot hobj.accepted) hr
  | remove path =>
    simp only [advanceDelete]
    cases hc : attempt fault .removeObject (s.files.removeFile path) with
    | error kind => exact hdone _
    | ok files' =>
      have hr := attempt_eq_ok hc
      have hp : path = host.location (l.key task) := hph
      refine ⟨h.links.removeFile hr, ?_, trivial, ?_, nofun, ?_⟩
      · intro key hk
        change _ = Function.update l.contents (l.key task) none key
        rw [FileSystem.content_removeFile hr, hp]
        by_cases he : key = l.key task
        · rw [he, if_pos rfl, Function.update_self]
        · rw [if_neg (fun hl => he (LocalHost.location_inj hk.accepted hobj.accepted hl)), Function.update_of_ne he,
            h.contents key hk]
      · intro q hq _ _
        rw [FileSystem.content_removeFile hr, hp, if_neg (fun he => hobj.location_ne hq he.symm)]
      · intro q hq
        rw [hstage] at hq
        cases hq

/-! ## Calls on a writer -/

variable {w : LocalWriter} {phase : WriterPhase}

theorem ensureOpen_eq_ok {operation : Operation} (h : w.ensureOpen operation = .ok ()) : w.active = true := by
  unfold LocalWriter.ensureOpen at h
  split at h
  · cases h
  · split at h
    · rename_i ha
      exact (Bool.and_eq_true_iff.mp ha).1
    · cases h

theorem LocalWriter.Inv.next {files files' : FileSystem} {l' : Ledger} {w' : LocalWriter} {phase' : WriterPhase}
    (h : w.Inv host initial l files task phase)
    (hl : l'.key task = l.key task ∧ l'.accepted task = l.accepted task)
    (hw : w'.stagePath = w.stagePath ∧ w'.destination = w.destination ∧ w'.sync = w.sync ∧ w'.active = w.active)
    (hfiles : ∀ p, files'.content p = files.content p)
    (hrun : phase' ≠ .idle → w.active = true) (hph : LocalWriter.PhaseInv (l'.chunk task) phase') :
    w'.Inv host initial l' files' task phase' := by
  obtain ⟨h₁, h₂, h₃, h₄⟩ := hw
  obtain ⟨hk, ha⟩ := hl
  refine ⟨by rw [hk]; exact h.object, by rw [h₂, hk]; exact h.destination, by rw [h₃]; exact h.sync,
    by rw [h₁]; exact h.reserved, by rw [h₁]; exact h.new, ?_, by rw [h₄]; exact hrun, hph⟩
  rw [h₁, h₄, hfiles, ha]
  exact h.staged

theorem stage?_eq {w' : LocalWriter} {phase' : WriterPhase}
    (hw : w'.stagePath = w.stagePath ∧ w'.destination = w.destination ∧ w'.sync = w.sync ∧ w'.active = w.active) :
    (Task.writer w' phase').stage? = (Task.writer w phase).stage? := by
  simp only [Task.stage?, hw.1, hw.2.2.2]

/-- A step that neither writes, publishes nor ends its writer. -/
theorem writer_next (h : s.Inv host initial l) (hs : s.tasks task = .writer w phase) {action : Action}
    {reply : StoreReply} {files' : FileSystem} {w' : LocalWriter} {phase' : WriterPhase}
    (hl : l.observe (⟨task, action, fault⟩, reply) = l)
    (hw : w'.stagePath = w.stagePath ∧ w'.destination = w.destination ∧ w'.sync = w.sync ∧ w'.active = w.active)
    (hlinks : files'.NoLinks) (hfiles : ∀ p, files'.content p = s.files.content p)
    (hrun : phase' ≠ .idle → w.active = true) (hph : LocalWriter.PhaseInv (l.chunk task) phase') :
    StepKeeps host initial l s ⟨task, action, fault⟩ ⟨reply, files', s.stageSequence, .writer w' phase'⟩ := by
  have ht := h.tasks task
  rw [hs] at ht
  unfold StepKeeps
  rw [hl]
  exact h.quiet hlinks hfiles rfl (ht.next ⟨rfl, rfl⟩ hw hfiles hrun hph) (by rw [hs]; exact stage?_eq hw)

theorem beginWrite_keeps (h : s.Inv host initial l) (hs : s.tasks task = .writer w .idle) (chunk : Bytes) :
    StepKeeps host initial l s ⟨task, .write chunk, fault⟩ (w.beginWrite s.files s.stageSequence chunk) := by
  have ht := h.tasks task
  rw [hs] at ht
  unfold LocalWriter.beginWrite
  cases ho : w.ensureOpen .writerWrite with
  | error failure =>
    exact h.quiet h.links (fun _ => rfl) rfl
      (ht.next ⟨rfl, rfl⟩ ⟨rfl, rfl, rfl, rfl⟩ (fun _ => rfl) (fun hn => absurd rfl hn) trivial) (by rw [hs])
  | ok =>
    refine h.quiet h.links (fun _ => rfl) rfl ?_ (by rw [hs]; rfl)
    refine ht.next ⟨rfl, rfl⟩ ⟨rfl, rfl, rfl, rfl⟩ (fun _ => rfl) (fun _ => ensureOpen_eq_ok ho) ?_
    exact (Function.update_self task chunk l.chunk).symm

theorem cleanup_keeps (h : s.Inv host initial l) (hs : s.tasks task = .writer w phase) (ha : w.active = true)
    {action : Action} (hact : action = .publish ∨ action = .advance) (failure : NativeFailure) :
    StepKeeps host initial l s ⟨task, action, fault⟩ (w.cleanup s.files s.stageSequence failure) := by
  refine writer_next h hs ?_ ⟨rfl, rfl, rfl, rfl⟩ h.links (fun _ => rfl) (fun _ => ha) trivial
  rcases hact with rfl | rfl <;> rfl

theorem beginPublish_keeps (h : s.Inv host initial l) (hs : s.tasks task = .writer w .idle) :
    StepKeeps host initial l s ⟨task, .publish, fault⟩ (w.beginPublish s.files s.stageSequence fault) := by
  unfold LocalWriter.beginPublish
  cases ho : w.ensureOpen .writerPublish with
  | error failure =>
    exact writer_next h hs rfl ⟨rfl, rfl, rfl, rfl⟩ h.links (fun _ => rfl) (fun hn => absurd rfl hn) trivial
  | ok =>
    have ha := ensureOpen_eq_ok ho
    simp only
    split
    · exact cleanup_keeps h hs ha (Or.inl rfl) _
    · refine writer_next h hs rfl ⟨rfl, rfl, rfl, rfl⟩ h.links (fun _ => rfl) (fun _ => ha) ?_
      split <;> trivial

theorem beginAbort_keeps (h : s.Inv host initial l) (hs : s.tasks task = .writer w .idle) :
    StepKeeps host initial l s ⟨task, .abort, fault⟩ (w.beginAbort s.files s.stageSequence) := by
  unfold LocalWriter.beginAbort
  split
  · rename_i ha
    exact writer_next h hs rfl ⟨rfl, rfl, rfl, rfl⟩ h.links (fun _ => rfl) (fun _ => ha) trivial
  · exact writer_next h hs rfl ⟨rfl, rfl, rfl, rfl⟩ h.links (fun _ => rfl) (fun hn => absurd rfl hn) trivial

theorem beginDrop_keeps (h : s.Inv host initial l) (hs : s.tasks task = .writer w .idle) :
    StepKeeps host initial l s ⟨task, .drop, fault⟩ (w.beginDrop s.files s.stageSequence) := by
  unfold LocalWriter.beginDrop
  split
  · rename_i ha
    exact writer_next h hs rfl ⟨rfl, rfl, rfl, rfl⟩ h.links (fun _ => rfl) (fun _ => ha) trivial
  · rename_i ha
    refine h.quiet h.links (fun _ => rfl) rfl trivial ?_
    rw [hs]
    simp [Task.stage?, ha]

theorem cancel_keeps (h : s.Inv host initial l) (hs : s.tasks task = .writer w phase) :
    StepKeeps host initial l s ⟨task, .cancel, fault⟩
      ⟨.running, s.files, s.stageSequence, .writer w.cancel phase⟩ := by
  have ht := h.tasks task
  rw [hs] at ht
  exact writer_next h hs rfl ⟨rfl, rfl, rfl, rfl⟩ h.links (fun _ => rfl) ht.running ht.phase

theorem publish_keeps (h : s.Inv host initial l) (hs : s.tasks task = .writer w phase) (ha : w.active = true)
    {files' : FileSystem} (hr : s.files.rename w.stagePath w.destination = .ok files') (size : Nat) :
    StepKeeps host initial l s ⟨task, .advance, fault⟩
      (if w.sync = .all then ⟨.running, files', s.stageSequence, .writer w (.syncingParent size)⟩
        else ⟨w.publishedReply host size, files', s.stageSequence, .writer w.finish .idle⟩) := by
  have ht := h.tasks task
  rw [hs] at ht
  have hstage : (s.tasks task).stage? = some w.stagePath := by
    rw [hs]
    simp only [Task.stage?, ha, if_true]
  rw [if_neg ht.sync, LocalWriter.publishedReply, ht.destination, LocalHost.localMetadata_location]
  rw [ht.destination] at hr
  refine ⟨h.links.rename hr, ?_, ?_, ?_, nofun, ?_⟩
  · intro k hk
    change _ = Function.update l.contents (l.key task) (some (l.accepted task)) k
    rw [FileSystem.content_rename hr]
    by_cases he : k = l.key task
    · rw [he, if_pos rfl, Function.update_self, ht.staged ha]
    · rw [if_neg (fun hl => he (LocalHost.location_inj hk.accepted ht.object.accepted hl)),
        if_neg (hk.location_ne ht.reserved), Function.update_of_ne he, h.contents k hk]
  · exact ⟨ht.object, ht.destination, ht.sync, ht.reserved, ht.new, nofun, fun hn => absurd rfl hn, trivial⟩
  · intro p hp hne _
    rw [FileSystem.content_rename hr, if_neg (fun he => ht.object.location_ne hp he.symm),
      if_neg (fun he => hne (by rw [hstage, he]))]
  · intro p hp
    rw [hstage] at hp
    cases hp
    exact Or.inr (by
      rw [FileSystem.content_rename hr, if_neg (fun he => ht.object.location_ne ht.reserved he.symm), if_pos rfl])

/-- The environment lets a flush and the removal of a staging file succeed, and a failing write append nothing. -/
def Fault.Admissible (f : Fault) : Prop := f.call ≠ .flush ∧ f.call ≠ .removeStage ∧ f.written = 0

section
variable (hf : ∀ f, fault = some f → f.Admissible)
include hf

theorem faultOf_admissible {call : SystemCall} (hc : call = .flush ∨ call = .removeStage) :
    faultOf fault call = none := by
  cases fault with
  | none => rfl
  | some f =>
    obtain ⟨h₁, h₂, -⟩ := hf f rfl
    have hne : f.call ≠ call := by
      rcases hc with rfl | rfl
      · exact h₁
      · exact h₂
    simp [faultOf, hne]

theorem written_admissible : (fault.map Fault.written).getD 0 = 0 := by
  cases fault with
  | none => rfl
  | some f => exact (hf f rfl).2.2

/-- The staging file of an active writer goes, and the writer with it. -/
theorem remove_keeps (h : s.Inv host initial l) (hs : s.tasks task = .writer w phase) (ha : w.active = true) :
    ∃ files', attempt fault .removeStage (s.files.removeFile w.stagePath) = .ok files' ∧
      ∀ reply new, l.observe (⟨task, .advance, fault⟩, reply) = l → (new = .done ∨ new = .writer w.finish .idle) →
        StepKeeps host initial l s ⟨task, .advance, fault⟩ ⟨reply, files', s.stageSequence, new⟩ := by
  have ht := h.tasks task
  rw [hs] at ht
  have hstage : (s.tasks task).stage? = some w.stagePath := by
    rw [hs]
    simp only [Task.stage?, ha, if_true]
  have hr := FileSystem.removeFile_of_content (ht.staged ha)
  refine ⟨s.files.unset w.stagePath, ?_, ?_⟩
  · rw [attempt, faultOf_admissible hf (Or.inr rfl)]
    exact hr
  · intro reply new hl hnew
    unfold StepKeeps
    rw [hl]
    rcases hnew with rfl | rfl
    · exact h.unstaged hstage hr rfl trivial rfl
    · refine h.unstaged hstage hr rfl ?_ rfl
      exact ⟨ht.object, ht.destination, ht.sync, ht.reserved, ht.new, nofun, fun hn => absurd rfl hn, trivial⟩

theorem write_keeps (h : s.Inv host initial l) {chunk : Bytes} (hs : s.tasks task = .writer w (.writing chunk)) :
    StepKeeps host initial l s ⟨task, .advance, fault⟩
      (w.advance host s.files s.stageSequence fault (.writing chunk)) := by
  have ht := h.tasks task
  rw [hs] at ht
  have ha := ht.running nofun
  have hstage : (s.tasks task).stage? = some w.stagePath := by
    rw [hs]
    simp only [Task.stage?, ha, if_true]
  simp only [LocalWriter.advance]
  split
  · refine writer_next h hs rfl ⟨rfl, rfl, rfl, rfl⟩ (h.links.append _ _) ?_ (fun hn => absurd rfl hn) trivial
    intro p
    rw [written_admissible hf, FileSystem.content_append]
    split
    · rename_i hp
      rw [hp, ht.staged ha]
      simp
    · rfl
  · have hflush : (if w.flush = .eachChunk then faultOf fault .flush else none) = none := by
      rw [faultOf_admissible hf (Or.inl rfl), ite_self]
    simp only [hflush]
    refine ⟨h.links.append _ _, ?_, ?_, ?_, ?_, ?_⟩
    · intro k hk
      rw [FileSystem.content_append, if_neg (hk.location_ne ht.reserved)]
      exact h.contents k hk
    · refine ⟨ht.object, ht.destination, ht.sync, ht.reserved, ht.new, ?_, fun hn => absurd rfl hn, trivial⟩
      intro _
      have hchunk : chunk = l.chunk task := ht.phase
      change _ = some (Function.update l.accepted task (l.accepted task ++ l.chunk task) task)
      rw [FileSystem.content_append, if_pos rfl, ht.staged ha, Function.update_self, hchunk]
      rfl
    · intro p _ hp _
      rw [FileSystem.content_append, if_neg (fun he => hp (by rw [hstage, he]))]
    · intro p hp
      exact Or.inl (by rw [hs]; exact hp)
    · intro p hp
      rw [hs] at hp
      exact Or.inl hp

theorem advance_keeps (hunix : host.windows = false) (h : s.Inv host initial l)
    (hs : s.tasks task = .writer w phase) :
    StepKeeps host initial l s ⟨task, .advance, fault⟩ (w.advance host s.files s.stageSequence fault phase) := by
  have ht := h.tasks task
  rw [hs] at ht
  have hnext : ∀ w' phase' reply, l.observe (⟨task, .advance, fault⟩, reply) = l →
      (w' = w ∨ w' = w.takeFile) → (phase' ≠ .idle → w.active = true) → LocalWriter.PhaseInv (l.chunk task) phase' →
      StepKeeps host initial l s ⟨task, .advance, fault⟩ ⟨reply, s.files, s.stageSequence, .writer w' phase'⟩ := by
    intro w' phase' reply hl hw hrun hph
    refine writer_next h hs hl ?_ h.links (fun _ => rfl) hrun hph
    rcases hw with rfl | rfl <;> exact ⟨rfl, rfl, rfl, rfl⟩
  cases phase with
  | idle => exact hnext w .idle .blocked rfl (Or.inl rfl) (fun hn => absurd rfl hn) trivial
  | writing chunk => exact write_keeps hf h hs
  | syncing =>
    have ha := ht.running nofun
    simp only [LocalWriter.advance]
    split
    · exact cleanup_keeps h hs ha (Or.inr rfl) _
    · exact hnext w .statting .running rfl (Or.inl rfl) (fun _ => ha) trivial
  | statting =>
    have ha := ht.running nofun
    simp only [LocalWriter.advance, hunix]
    split
    · exact cleanup_keeps h hs ha (Or.inr rfl) _
    · split
      · exact cleanup_keeps h hs ha (Or.inr rfl) _
      · exact hnext w.takeFile _ .running rfl (Or.inr rfl) (fun _ => ha) trivial
  | replacing size => exact ht.phase.elim
  | moving size =>
    have ha := ht.running nofun
    simp only [LocalWriter.advance]
    cases hr : attempt fault .rename (s.files.rename w.stagePath w.destination) with
    | error kind => exact cleanup_keeps h hs ha (Or.inr rfl) _
    | ok files' => exact publish_keeps h hs ha (attempt_eq_ok hr) size
  | syncingParent size => exact ht.phase.elim
  | cleaning failure =>
    obtain ⟨files', hr, hk⟩ := remove_keeps hf h hs (ht.running nofun)
    simp only [LocalWriter.advance, hr, Except.toOption, Option.getD_some]
    cases failure with
    | none => exact hk .dropped .done rfl (Or.inl rfl)
    | some failure => exact hk (.failed failure) _ rfl (Or.inr rfl)
  | removing =>
    obtain ⟨files', hr, hk⟩ := remove_keeps hf h hs (ht.running nofun)
    simp only [LocalWriter.advance, hr]
    exact hk (.aborted true) _ rfl (Or.inr rfl)

end

end

/-! ## Every interleaving -/

/-- The keys are not those of staging files, and the data of a published object is not synced with its directory. -/
def StoreEvent.Admissible (host : LocalHost) (event : StoreEvent) : Prop :=
  (match event.action with
    | .openWriter key options => ¬ host.Reserved key ∧ options.sync ≠ .all
    | .delete key => ¬ host.Reserved key
    | _ => True) ∧
  ∀ f, event.fault = some f → f.Admissible

section
variable {host : LocalHost} {initial : FileSystem} {l : Ledger} {s : LocalState}

theorem step_keeps (hunix : host.windows = false) (hroot : FileSystem.Plain host.root) (h : s.Inv host initial l)
    {event : StoreEvent} (he : event.Admissible host) :
    StepKeeps host initial l s event
      ((s.tasks event.task).step host s.files s.stageSequence event.fault event.action) := by
  obtain ⟨task, action, fault⟩ := event
  obtain ⟨hkey, hf⟩ := he
  simp only at hkey hf ⊢
  have hblocked : StepKeeps host initial l s ⟨task, action, fault⟩
      ⟨.blocked, s.files, s.stageSequence, s.tasks task⟩ :=
    h.quiet h.links (fun _ => rfl) rfl (h.tasks task) rfl
  cases hs : s.tasks task with
  | absent =>
    rw [hs] at hblocked
    cases action with
    | openWriter key options => exact beginOpen_keeps h hs hkey.1 hkey.2
    | delete key => exact beginDelete_keeps h hs hkey
    | _ => exact hblocked
  | opening key options phase =>
    rw [hs] at hblocked
    cases action with
    | advance => exact advanceOpen_keeps hroot h hs
    | _ => exact hblocked
  | deleting phase =>
    rw [hs] at hblocked
    cases action with
    | advance => exact advanceDelete_keeps hroot h hs
    | _ => exact hblocked
  | done =>
    rw [hs] at hblocked
    exact hblocked
  | writer w phase =>
    rw [hs] at hblocked
    cases action with
    | cancel => cases phase <;> exact cancel_keeps h hs
    | advance => cases phase <;> exact advance_keeps hf hunix h hs
    | write chunk =>
      cases phase with
      | idle => exact beginWrite_keeps h hs chunk
      | _ => exact hblocked
    | publish =>
      cases phase with
      | idle => exact beginPublish_keeps h hs
      | _ => exact hblocked
    | abort =>
      cases phase with
      | idle => exact beginAbort_keeps h hs
      | _ => exact hblocked
    | drop =>
      cases phase with
      | idle => exact beginDrop_keeps h hs
      | _ => exact hblocked
    | _ => cases phase <;> exact hblocked

theorem step_inv (hunix : host.windows = false) (hroot : FileSystem.Plain host.root) (h : s.Inv host initial l)
    {event : StoreEvent} (he : event.Admissible host) :
    LocalState.Inv host initial (l.observe (event, (s.step host event).1)) (s.step host event).2 :=
  h.step _ (fun _ hv => l.observe_other (event, (s.step host event).1) hv) (step_keeps hunix hroot h he)

theorem first_inv (hl : initial.NoLinks) (stageSequence : Nat) :
    LocalState.Inv host initial (Ledger.first fun key => initial.content (host.location key))
      (LocalState.first initial stageSequence) :=
  ⟨hl, fun _ _ => rfl, fun _ => rfl, fun _ _ _ hv => (by cases hv), fun _ _ _ => rfl⟩

/-! ## Retired writers -/

/-- The writer has been published, aborted or dropped, or its publish has failed. -/
def Task.Retired : Task → Prop
  | .writer w phase => phase = .idle ∧ w.active = false
  | .done => True
  | _ => False

theorem ensureOpen_inactive {w : LocalWriter} (hw : w.active = false) (operation : Operation) :
    w.ensureOpen operation = .error (.cancelled operation) := by
  unfold LocalWriter.ensureOpen
  rw [hw]
  simp

theorem Task.Retired.step {t : Task} (h : t.Retired) (files : FileSystem) (stageSequence : Nat)
    (fault : Option Fault) (action : Action) :
    (t.step host files stageSequence fault action).task.Retired ∧
      ∀ metadata, (t.step host files stageSequence fault action).reply ≠ .published metadata := by
  cases t with
  | writer w phase =>
    obtain ⟨rfl, hw⟩ := h
    cases action with
    | write chunk =>
      simp only [Task.step, LocalWriter.beginWrite, ensureOpen_inactive hw]
      exact ⟨⟨rfl, hw⟩, nofun⟩
    | publish =>
      simp only [Task.step, LocalWriter.beginPublish, ensureOpen_inactive hw]
      exact ⟨⟨rfl, hw⟩, nofun⟩
    | abort =>
      simp only [Task.step, LocalWriter.beginAbort, hw]
      exact ⟨⟨rfl, hw⟩, nofun⟩
    | drop =>
      simp only [Task.step, LocalWriter.beginDrop, hw]
      exact ⟨trivial, nofun⟩
    | _ => exact ⟨⟨rfl, hw⟩, nofun⟩
  | done => cases action <;> exact ⟨trivial, nofun⟩
  | absent => exact h.elim
  | opening key options phase => exact h.elim
  | deleting phase => exact h.elim

/-- A retired writer never publishes again. -/
theorem retired_never_publishes {task : Nat} (h : (s.tasks task).Retired) (later : List StoreEvent) :
    ∀ entry ∈ (LocalState.machine host).trace s later, entry.1.task = task →
      ∀ metadata, entry.2 ≠ .published metadata := by
  refine (LocalState.machine host).forall_trace (I := fun s => (s.tasks task).Retired)
    (Q := fun e r => e.task = task → ∀ metadata, r ≠ .published metadata) h ?_ ?_ later
  · intro s e hs
    change (Function.update s.tasks e.task _ task).Retired
    by_cases he : task = e.task
    · rw [he] at hs ⊢
      rw [Function.update_self]
      exact (hs.step _ _ _ _).1
    · rw [Function.update_of_ne he]
      exact hs
  · intro s e hs he
    rw [← he] at hs
    exact (hs.step _ _ _ _).2

theorem LocalState.Inv.retired (h : s.Inv host initial l) {task : Nat} {w : LocalWriter} {phase : WriterPhase}
    (hs : s.tasks task = .writer w phase) (hw : w.active = false) : (s.tasks task).Retired := by
  have ht := h.tasks task
  rw [hs] at ht ⊢
  refine ⟨?_, hw⟩
  by_cases hp : phase = .idle
  · exact hp
  · have := ht.running hp
    rw [hw] at this
    cases this

theorem LocalState.Inv.staged_iff (h : s.Inv host initial l) {task : Nat} {w : LocalWriter} {phase : WriterPhase}
    (hs : s.tasks task = .writer w phase) :
    s.files.content w.stagePath ≠ none ↔ ∃ v, (s.tasks v).stage? = some w.stagePath := by
  have ht := h.tasks task
  rw [hs] at ht
  constructor
  · intro hc
    by_contra hv
    refine hc ((h.unowned w.stagePath ht.reserved fun v hv' => hv ⟨v, hv'⟩).trans ht.new)
  · rintro ⟨v, hv⟩
    rw [(h.stage hv).2.2]
    nofun

end

/-- Local publication, over every interleaving of any number of writers and deletes. -/
theorem local_publication (host : LocalHost) (initial : FileSystem) (path : Path) (stageSequence : Nat)
    (events : List StoreEvent) (hopen : openLocal initial path = .ok host.root) (hlinks : initial.NoLinks)
    (hunix : host.windows = false) (hevents : ∀ event ∈ events, event.Admissible host) :
    let first := LocalState.first initial stageSequence
    let ledger := (Ledger.first fun key => initial.content (host.location key)).after
      ((LocalState.machine host).trace first events)
    let s := (LocalState.machine host).run first events
    (∀ key, host.ObjectKey key → s.files.content (host.location key) = ledger.contents key) ∧
    (∀ event key, event.Admissible host → host.ObjectKey key →
      (s.step host event).2.files.content (host.location key) ≠ s.files.content (host.location key) →
      (∃ metadata, (s.step host event).1 = .published metadata) ∨ (s.step host event).1 = .deleted) ∧
    (∀ task w phase, s.tasks task = .writer w phase →
      (w.active = true → s.files.content w.stagePath = some (ledger.accepted task)) ∧
      (s.files.content w.stagePath ≠ none ↔ ∃ v, (s.tasks v).stage? = some w.stagePath)) ∧
    (∀ p, host.ReservedPath p → s.files.content p ≠ none →
      initial.content p = s.files.content p ∨ ∃ v, (s.tasks v).stage? = some p) ∧
    (∀ v w p, (s.tasks v).stage? = some p → (s.tasks w).stage? = some p → v = w) ∧
    (∀ task w phase, s.tasks task = .writer w phase → w.active = false →
      ∀ later, ∀ entry ∈ (LocalState.machine host).trace s later, entry.1.task = task →
        ∀ metadata, entry.2 ≠ .published metadata) := by
  intro first ledger s
  have hroot := openLocal_plain hopen hlinks
  have h : s.Inv host initial ledger := by
    refine (LocalState.machine host).trace_inv_of (P := StoreEvent.Admissible host)
      (I := fun history s =>
        s.Inv host initial ((Ledger.first fun key => initial.content (host.location key)).after history))
      (first_inv hlinks stageSequence) ?_ hevents
    intro history s event he hs
    rw [Ledger.after_concat]
    exact step_inv hunix hroot hs he
  refine ⟨h.contents, ?_, ?_, ?_, h.distinct, ?_⟩
  · intro event key he hk hne
    have hstep := step_inv hunix hroot h he
    rw [hstep.contents key hk, h.contents key hk] at hne
    by_contra hr
    refine hne ?_
    rw [Ledger.observe_contents]
    · exact fun metadata hm => hr (Or.inl ⟨metadata, hm⟩)
    · exact fun hd => hr (Or.inr hd)
  · intro task w phase hs
    have ht := h.tasks task
    rw [hs] at ht
    exact ⟨ht.staged, h.staged_iff hs⟩
  · intro p hp hc
    by_cases hv : ∃ v, (s.tasks v).stage? = some p
    · exact Or.inr hv
    · exact Or.inl (h.unowned p hp fun v hv' => hv ⟨v, hv'⟩).symm
  · intro task w phase hs hw later
    exact retired_never_publishes (h.retired hs hw) later

def sharedHost : LocalHost := { root := ["data"], pid := 7, windows := false }

def sharedFiles : FileSystem := FileSystem.set ⟨∅⟩ ["data"] .directory

def sharedOptions : WriteOptions := { flush := .beforePublish, sync := .data }

/-- Two writers on one key: the owner of the first dies before its rename, and the second is published after it. -/
def sharedEvents : List StoreEvent :=
  [⟨0, .openWriter "k" sharedOptions, none⟩, ⟨1, .openWriter "k" sharedOptions, none⟩, ⟨0, .advance, none⟩,
    ⟨1, .advance, none⟩, ⟨1, .advance, none⟩, ⟨0, .advance, none⟩, ⟨0, .advance, none⟩, ⟨1, .advance, none⟩,
    ⟨0, .write [1], none⟩, ⟨0, .advance, none⟩, ⟨0, .publish, none⟩, ⟨1, .write [2], none⟩, ⟨0, .advance, none⟩,
    ⟨1, .advance, none⟩, ⟨0, .advance, none⟩, ⟨0, .cancel, none⟩, ⟨1, .publish, none⟩, ⟨0, .advance, none⟩,
    ⟨1, .advance, none⟩, ⟨1, .advance, none⟩, ⟨1, .advance, none⟩]

theorem sharedFiles_links : sharedFiles.NoLinks := by
  intro p absolute target
  unfold sharedFiles
  rw [FileSystem.get_set (by simp)]
  split
  · nofun
  · unfold FileSystem.get
    split
    · nofun
    · rw [AList.lookup_empty]
      nofun

theorem sharedHost_unreserved : ¬ sharedHost.Reserved "k" := by
  intro ⟨fileName, sequence, h⟩
  rw [show (keyPath "k").getLast? = some "k" by decide, Option.some.injEq] at h
  have := congrArg (fun s => s.toList.head?) h
  simp [LocalHost.stageName, String.toList_append] at this

theorem sharedEvents_admissible : ∀ event ∈ sharedEvents, event.Admissible sharedHost := by
  have hnone : ∀ f : Fault, none = some f → f.Admissible := nofun
  have hsync : sharedOptions.sync ≠ .all := nofun
  unfold sharedEvents
  iterate 2 refine List.forall_mem_cons.mpr ⟨⟨⟨sharedHost_unreserved, hsync⟩, hnone⟩, ?_⟩
  iterate 19 refine List.forall_mem_cons.mpr ⟨⟨trivial, hnone⟩, ?_⟩
  exact List.forall_mem_nil _

theorem local_publication_last_completion_wins :
    ((LocalState.machine sharedHost).run (LocalState.first sharedFiles 5) sharedEvents).files.content
      (sharedHost.location "k") = some [2] := by
  have h := (local_publication sharedHost sharedFiles ["data"] 5 sharedEvents rfl sharedFiles_links rfl
    sharedEvents_admissible).1 "k" ⟨by decide, sharedHost_unreserved⟩
  rw [h]
  decide

end Parquex
