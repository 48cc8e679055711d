import Parquex.BackendAgreement

/-!
# The namespace of a remote store

A key names one location beneath the base, and a listing names its locations by the
keys that lead back to them. Stores whose bases do not lie within each other share
no location.
-/

namespace Parquex

/-! ## Opening -/

/-- The base that a store is opened with, for the prefix in its options. -/
def Store.nativeS3Key (text : String) : Except Error String := do
  let prefix' ← normalizePrefix text true
  return trimTrailingSlash prefix'

theorem Trimmed.trimTrailingSlash_append {s : String} (h : Trimmed s) : trimTrailingSlash (s ++ "/") = s := by
  have hlast := not_hasSuffix_slash_iff.mp h.2
  have htrail : s.toList.rdropWhile (· == '/') = s.toList := by
    rw [List.rdropWhile_eq_self_iff]
    intro hne
    rw [List.getLast?_eq_some_getLast hne] at hlast
    simpa using hlast
  have htoList : (s ++ "/").toList = s.toList ++ ['/'] := by simp
  unfold trimTrailingSlash
  rw [htoList, List.rdropWhile_concat_pos _ _ _ (by decide), htrail, String.ofList_toList]

theorem Store.nativeS3Key_eq_ok {text base : String} (h : Store.nativeS3Key text = .ok base) :
    base = "" ∨ AcceptedKey base := by
  unfold nativeS3Key normalizePrefix at h
  by_cases ht : text = ""
  · rw [if_pos ht] at h
    cases h
    exact Or.inl (by decide)
  · rw [if_neg ht] at h
    obtain ⟨prefix', hprefix, hbase⟩ := except_map_eq_ok.mp h
    obtain ⟨key, hkey, rfl⟩ := except_map_eq_ok.mp hprefix
    have hk := (normalizeKey_eq_ok hkey).2
    rw [(normalizeKey_eq_ok hkey).1] at hbase
    rw [← hbase, hk.relative.trimmed.trimTrailingSlash_append]
    exact Or.inr hk

/-! ## Locations -/

/-- The location is in the namespace of a base. -/
def InNamespace (base location : String) : Prop := base = "" ∨ hasPrefix location (base ++ "/") = true

/-- Neither base is the other or lies above it. -/
structure Apart (base other : String) : Prop where
  nonempty : base ≠ "" ∧ other ≠ ""
  ne : base ≠ other
  notBelow : hasPrefix base (other ++ "/") = false
  notAbove : hasPrefix other (base ++ "/") = false

theorem inNamespace_pathOf (base key : String) : InNamespace base (pathOf base key) := by
  unfold InNamespace pathOf
  by_cases hbase : base = ""
  · exact Or.inl hbase
  · rw [if_neg hbase]
    exact Or.inr (hasPrefix_iff_append.mpr ⟨key, rfl⟩)

/-- Of two paths that lie above one location, one lies above the other. -/
theorem hasPrefix_of_common {base other location : String} (h : hasPrefix location (base ++ "/") = true)
    (h' : hasPrefix location (other ++ "/") = true) :
    base = other ∨ hasPrefix base (other ++ "/") = true ∨ hasPrefix other (base ++ "/") = true := by
  have hslash : ∀ s : String, (s ++ "/").toList = s.toList ++ ['/'] := by simp
  have hone : ∀ {s t : String}, (s ++ "/").toList <+: (t ++ "/").toList → s = t ∨ hasPrefix t (s ++ "/") = true := by
    intro s t hst
    rw [hslash t, List.prefix_concat_iff] at hst
    rcases hst with heq | hbelow
    · rw [hslash] at heq
      exact Or.inl (String.toList_inj.mp (List.append_cancel_right heq))
    · exact Or.inr (hasPrefix_iff.mpr hbelow)
  rcases List.prefix_or_prefix_of_prefix (hasPrefix_iff.mp h) (hasPrefix_iff.mp h') with hst | hts
  · exact (hone hst).imp_right Or.inr
  · rcases hone hts with heq | hbelow
    · exact Or.inl heq.symm
    · exact Or.inr (Or.inl hbelow)

theorem Apart.not_inNamespace {base other location : String} (h : Apart base other) (hb : InNamespace base location) :
    ¬ InNamespace other location := by
  intro ho
  rcases hasPrefix_of_common (hb.resolve_left h.nonempty.1) (ho.resolve_left h.nonempty.2) with heq | hbelow | habove
  · exact h.ne heq
  · rw [h.notBelow] at hbelow
    cases hbelow
  · rw [h.notAbove] at habove
    cases habove

/-- What lies beneath a base has a key there. -/
theorem exists_relative {base location : String} (hl : RelativeKey location) (hw : InNamespace base location) :
    ∃ key, RelativeKey key ∧ location = pathOf base key := by
  by_cases hbase : base = ""
  · exact ⟨location, hl, by unfold pathOf; rw [if_pos hbase]⟩
  · obtain ⟨key, rfl⟩ := hasPrefix_iff_append.mp (hw.resolve_left hbase)
    refine ⟨key, ⟨fun s hs => hl.1 s ?_, fun hback => hl.2 ?_⟩, by unfold pathOf; rw [if_neg hbase]⟩
    · rw [splitSlash_append]
      exact List.mem_append_right _ hs
    · rw [String.toList_append]
      exact List.mem_append_right _ hback

/-! ## Calls -/

/-- An upload to a location, as the client began it. -/
structure RemoteUpload (υ : Type) where
  destination : String
  upload : υ

namespace RemoteStore

variable {σ υ : Type} (remote : RemoteStore σ) (state : σ) (putMultipart : String → Except RemoteErrorKind υ)

def openMultipart (object : RemoteObject) : Except NativeFailure (RemoteUpload υ) := do
  let upload ← remoteCall .s3WriterOpen (putMultipart object.path)
  return { destination := object.path, upload }

def openWriter (key : String) : Except NativeFailure (RemoteUpload υ) := do
  validateKey key false
  let object ← remote.object key
  openMultipart putMultipart object

/-- The locations beneath a prefix, with their sizes. -/
def located (pre : String) : Except NativeFailure (List (String × Nat)) := do
  let object ← remote.object ""
  remote.listObject state object pre

def list (pre : String) : Except NativeFailure (List ObjectMetadata) := do
  let entries ← remote.located state pre
  return entries.map fun entry => { path := remote.stripMarker entry.1, size := entry.2 }

/-- A call that is made when the client takes the text for a path. -/
def whenPath {α : Type} (location : String) (call : Except NativeFailure α) : Except NativeFailure α :=
  if (remote.service.parse location).isSome then call else .error (.invalid .storeOpen "object key is invalid")

/-- The calls for a key ask the service about one location, or make no request. -/
structure CallsAt (key location : String) : Prop where
  head : remote.storeHead state key = remote.whenPath location
    ((remoteCall .storeHead (remote.service.head state location)).map fun size => { path := key, size })
  readRange : ∀ offset length, remote.storeReadRange state key offset length = remote.whenPath location
    (remote.readObject state { path := location, key := location } offset length .storeReadRange)
  delete : remote.storeDelete state key = remote.whenPath location
    (remoteCall .s3Delete (remote.service.delete state location))
  openWriter : remote.openWriter putMultipart key = remote.whenPath location
    ((remoteCall .s3WriterOpen (putMultipart location)).map fun upload => { destination := location, upload })

theorem storeList_eq_list (pre : String) :
    remote.storeList state pre = validateKey pre true >>= fun _ => remote.list state pre := by
  unfold storeList list located
  simp only [bind_assoc]

section
variable {remote state putMultipart} {key pre location : String} {self : Bool}
  (hb : remote.base = "" ∨ AcceptedKey remote.base)
  (hparse : ∀ text path, Trimmed text → remote.service.parse text = some path → path = text)

section
include hb

theorem trimmed_pathOf (hk : RelativeKey key) : Trimmed (pathOf remote.base key) := by
  rw [← joinKey_relative hb hk]
  exact trimmed_joinKey _ _

include hparse in
theorem object_relative (hk : RelativeKey key) :
    remote.object key = remote.whenPath (pathOf remote.base key)
      (.ok { path := pathOf remote.base key, key := pathOf remote.base key }) := by
  unfold object whenPath
  rw [joinKey_relative hb hk]
  cases hpath : remote.service.parse (pathOf remote.base key) with
  | none => rfl
  | some path =>
    rw [hparse _ _ (trimmed_pathOf hb hk) hpath]
    rfl

include hparse in
theorem callsAt_relative (hk : RelativeKey key) :
    remote.CallsAt state putMultipart key (pathOf remote.base key) := by
  have hobject := object_relative hb hparse hk
  have hvalid := hk.validateKey false
  unfold whenPath at hobject
  constructor
  · unfold storeHead headObject whenPath
    rw [hvalid, hobject]
    split <;> rfl
  · intro offset length
    unfold storeReadRange whenPath
    rw [hvalid, hobject]
    split <;> rfl
  · unfold storeDelete whenPath
    rw [hvalid, hobject]
    split <;> rfl
  · unfold RemoteStore.openWriter openMultipart whenPath
    rw [hvalid, hobject]
    split <;> rfl

/-- Whatever the prefix is, the text that is listed is the base or lies beneath it. -/
theorem joinKey_inNamespace (pre : String) : InNamespace remote.base (joinKey remote.base pre) ∨
    joinKey remote.base pre = remote.base := by
  rcases hb with hb | hb
  · exact Or.inl (Or.inl hb)
  · have hne := (acceptedKey_iff.mp hb).1
    unfold joinKey
    rw [hb.trimSlashes, if_neg hne]
    by_cases hpre : trimSlashes pre = ""
    · rw [if_pos hpre]
      exact Or.inr rfl
    · rw [if_neg hpre]
      exact Or.inl (Or.inr (hasPrefix_iff_append.mpr ⟨_, rfl⟩))

include hparse in
/-- A listing returns what lies beneath the base, and the base when the service counts it. -/
theorem located_inNamespace
    (hlist : ∀ scope entries, remote.service.list state scope = .ok entries →
      ∀ entry ∈ entries, InPrefix self entry.1 scope)
    {entries : List (String × Nat)} (h : remote.located state pre = .ok entries) {entry : String × Nat}
    (he : entry ∈ entries) : InNamespace remote.base entry.1 ∨ (self = true ∧ entry.1 = remote.base) := by
  by_cases hempty : remote.base = ""
  · exact Or.inl (Or.inl hempty)
  · unfold located at h
    obtain ⟨object, hobject, h⟩ := except_bind_eq_ok.mp h
    have hkey : object.key = remote.base := by
      unfold RemoteStore.object at hobject
      rw [joinKey_empty hb] at hobject
      split at hobject
      · cases hobject
      · cases hobject
        rfl
    unfold listObject at h
    rw [hkey] at h
    obtain ⟨scope, hscope, h⟩ := except_bind_eq_ok.mp h
    obtain ⟨found, hfound, h⟩ := except_bind_eq_ok.mp h
    cases h
    rw [List.mem_insertionSort] at he
    have hservice : remote.service.list state scope = .ok found := by
      unfold remoteCall at hfound
      split at hfound
      · next hlisted =>
        cases hfound
        exact hlisted
      · cases hfound
    have hin := hlist scope found hservice entry he
    have hcombined : scope = some (joinKey remote.base pre) := by
      have hne : joinKey remote.base pre ≠ "" := by
        intro hnone
        rcases joinKey_inNamespace hb pre with hw | hsame
        · rw [hnone] at hw
          have hbelow := hasPrefix_iff.mp (hw.resolve_left hempty)
          simp at hbelow
        · exact hempty (hsame.symm.trans hnone)
      unfold listPrefix at hscope
      rw [if_neg hne] at hscope
      split at hscope
      · cases hscope
      · next path hpath =>
        cases hscope
        rw [hparse _ _ (trimmed_joinKey _ _) hpath]
    rw [hcombined] at hin
    have hbeneath : ∀ {text : String}, hasPrefix text (joinKey remote.base pre) = true →
        InNamespace remote.base (joinKey remote.base pre) → InNamespace remote.base text := fun htext hw =>
      hw.imp_right fun hw => hasPrefix_trans htext hw
    rcases hin with hbelow | ⟨hself, hsame⟩
    · rcases joinKey_inNamespace hb pre with hw | heq
      · exact Or.inl (hbeneath (hasPrefix_trans hbelow (hasPrefix_iff_append.mpr ⟨"/", rfl⟩)) hw)
      · rw [heq] at hbelow
        exact Or.inl (Or.inr hbelow)
    · rcases joinKey_inNamespace hb pre with hw | heq
      · exact Or.inl (hsame ▸ hw)
      · exact Or.inr ⟨hself, hsame.trans heq⟩

end

/-- The calls for a key ask about the one location beneath the base, no two keys share one, a listing names its
locations by the keys that lead back to them, and no other store has one of them unless its base lies above or
beneath this one. -/
theorem remote_namespace {text : String} (hbase : Store.nativeS3Key text = .ok remote.base)
    (hparse : ∀ text path, Trimmed text → remote.service.parse text = some path → path = text)
    (hlist : ∀ scope entries, remote.service.list state scope = .ok entries →
      ∀ entry ∈ entries, InPrefix self entry.1 scope) :
    (∀ key, AcceptedKey key → remote.CallsAt state putMultipart key (pathOf remote.base key) ∧
      InNamespace remote.base (pathOf remote.base key)) ∧
    (∀ key k, pathOf remote.base key = pathOf remote.base k → key = k) ∧
    (∀ pre entries, remote.located state pre = .ok entries →
      remote.list state pre = .ok (entries.map fun entry => { path := remote.stripMarker entry.1, size := entry.2 }) ∧
      ∀ entry ∈ entries,
        (∀ key, AcceptedKey key → entry.1 = pathOf remote.base key → remote.stripMarker entry.1 = key) ∧
        (AcceptedKey entry.1 → self = false ∨ entry.1 ≠ remote.base →
          remote.CallsAt state putMultipart (remote.stripMarker entry.1) entry.1) ∧
        ∀ text' other, Store.nativeS3Key text' = .ok other → Apart remote.base other →
          ∀ key, entry.1 ≠ pathOf other key) ∧
    (∀ text' other, Store.nativeS3Key text' = .ok other → Apart remote.base other →
      ∀ key k, pathOf remote.base key ≠ pathOf other k) := by
  have hb := Store.nativeS3Key_eq_ok hbase
  refine ⟨fun key hk => ⟨callsAt_relative hb hparse hk.relative, inNamespace_pathOf _ _⟩, fun _ _ => pathOf_inj,
    fun pre entries h => ⟨?_, fun entry he => ⟨?_, ?_, ?_⟩⟩, ?_⟩
  · unfold list
    rw [h]
    rfl
  · rintro key - hkey
    rw [hkey, stripMarker_path hb]
  · intro hk hself
    have hwithin : InNamespace remote.base entry.1 := by
      rcases located_inNamespace hb hparse hlist h he with hwithin | ⟨htrue, hsame⟩
      · exact hwithin
      · rcases hself with hfalse | hne
        · rw [hfalse] at htrue
          cases htrue
        · exact absurd hsame hne
    obtain ⟨key, hkey, hpath⟩ := exists_relative hk.relative hwithin
    rw [hpath, stripMarker_path hb]
    exact callsAt_relative hb hparse hkey
  · intro text' other _ hapart key hsame
    have hother : InNamespace other entry.1 := hsame ▸ inNamespace_pathOf other key
    rcases located_inNamespace hb hparse hlist h he with hwithin | ⟨-, hroot⟩
    · exact hapart.not_inNamespace hwithin hother
    · rw [hroot] at hother
      rcases hother with hempty | hbelow
      · exact hapart.nonempty.2 hempty
      · rw [hapart.notBelow] at hbelow
        cases hbelow
  · intro text' other _ hapart key k hsame
    exact hapart.not_inNamespace (inNamespace_pathOf _ key) (hsame ▸ inNamespace_pathOf other k)

end

end RemoteStore

/-! ## Two stores of one bucket -/

def prodRemote : RemoteStore Memory := { service := memoryService, base := "prod" }

def prodState : Memory := AList.insert "prod/a" [1, 2] (AList.insert "production/a" [3] ∅)

theorem remote_namespace_prod :
    prodRemote.list prodState "" = .ok [{ path := "a", size := 2 }] ∧
      prodRemote.CallsAt prodState (fun _ => Except.ok ()) "a" "prod/a" := by
  have hlist : ∀ scope entries, prodRemote.service.list prodState scope = .ok entries →
      ∀ entry ∈ entries, InPrefix false entry.1 scope := by
    intro scope entries h entry he
    cases h
    obtain ⟨listed, hlisted, rfl⟩ := List.mem_map.mp he
    exact of_decide_eq_true (List.mem_filter.mp hlisted).2
  have hparse : ∀ text path, Trimmed text → prodRemote.service.parse text = some path → path = text := by
    intro text path _ h
    change (if hasControl text then none else some text) = some path at h
    split at h
    · cases h
    · exact (Option.some.inj h).symm
  have hnamespace := @RemoteStore.remote_namespace Memory Unit prodRemote prodState (fun _ => .ok ()) false "prod//"
    (by decide) hparse hlist
  obtain ⟨hlisted, hentries⟩ := hnamespace.2.2.1 "" [("prod/a", 2)] (by decide)
  have hstrip : prodRemote.stripMarker "prod/a" = "a" := by decide
  have hcalls := (hentries ("prod/a", 2) (List.mem_singleton_self _)).2.1 (by decide) (Or.inl rfl)
  rw [hstrip] at hcalls
  refine ⟨?_, hcalls⟩
  rw [hlisted, List.map_singleton, hstrip]

end Parquex
