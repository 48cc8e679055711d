import Parquex.LocalListExact
import Parquex.RemoteObjects

/-!
# Objects of a remote store, by their keys

When the bucket holds the objects of a map beneath the base of the store, the
native calls answer from that map.
-/

namespace Parquex

/-! ## Paths in the bucket -/

theorem not_hasPrefix_slash_iff {s : String} : hasPrefix s "/" = false ↔ s.toList.head? ≠ some '/' := by
  rw [← Bool.not_eq_true, hasPrefix_iff]
  cases s.toList with
  | nil => simp
  | cons c cs => simp [List.cons_prefix_cons, eq_comm]

theorem not_hasSuffix_slash_iff {s : String} : hasSuffix s "/" = false ↔ s.toList.getLast? ≠ some '/' := by
  rw [← Bool.not_eq_true, hasSuffix_iff]
  refine not_congr ⟨?_, fun hlast => ?_⟩
  · rintro ⟨cs, hcs⟩
    rw [← hcs]
    simp
  · exact ⟨s.toList.dropLast, List.dropLast_append_getLast? '/' hlast⟩

/-- A text without a separator at either end. -/
def Trimmed (s : String) : Prop := hasPrefix s "/" = false ∧ hasSuffix s "/" = false

theorem Trimmed.trimSlashes {s : String} (h : Trimmed s) : trimSlashes s = s := by
  obtain ⟨hhead, hlast⟩ := h
  rw [not_hasPrefix_slash_iff] at hhead
  rw [not_hasSuffix_slash_iff] at hlast
  have hlead : s.toList.dropWhile (· == '/') = s.toList := by
    cases hl : s.toList with
    | nil => rfl
    | cons c cs =>
      rw [hl] at hhead
      rw [List.dropWhile_cons_of_neg (by simpa using hhead)]
  have htrail : s.toList.rdropWhile (· == '/') = s.toList := by
    rw [List.rdropWhile_eq_self_iff]
    intro hne
    rw [List.getLast?_eq_some_getLast hne] at hlast
    simpa using hlast
  unfold Parquex.trimSlashes
  rw [hlead, htrail, String.ofList_toList]

theorem trimmed_trimSlashes (s : String) : Trimmed (trimSlashes s) := by
  have hfront : (s.toList.dropWhile (· == '/')).head? ≠ some '/' := by
    intro hhead
    have hne : s.toList.dropWhile (· == '/') ≠ [] := by
      intro hnil
      rw [hnil] at hhead
      cases hhead
    have hnot := List.head_dropWhile_not (· == '/') hne
    rw [List.head?_eq_some_head hne] at hhead
    simp [Option.some.inj hhead] at hnot
  obtain ⟨rest, hrest⟩ := List.rdropWhile_prefix (· == '/') (s.toList.dropWhile (· == '/'))
  unfold Trimmed
  rw [not_hasPrefix_slash_iff, not_hasSuffix_slash_iff]
  unfold Parquex.trimSlashes
  rw [String.toList_ofList]
  constructor
  · intro hhead
    rw [← hrest, List.head?_append, hhead] at hfront
    exact hfront rfl
  · intro hlast
    have hne : (s.toList.dropWhile (· == '/')).rdropWhile (· == '/') ≠ [] := by
      intro hnil
      rw [hnil] at hlast
      cases hlast
    rw [List.getLast?_eq_some_getLast hne] at hlast
    have hnot := List.rdropWhile_last_not (· == '/') (s.toList.dropWhile (· == '/')) hne
    simp [Option.some.inj hlast] at hnot

theorem RelativeKey.trimmed {key : String} (h : RelativeKey key) : Trimmed key := by
  refine ⟨h.not_hasPrefix_slash, ?_⟩
  rw [not_hasSuffix_slash_iff]
  intro hlast
  have hkey : key = String.ofList key.toList.dropLast ++ "/" ++ "" := by
    apply String.toList_inj.mp
    simpa using (List.dropLast_append_getLast? '/' hlast).symm
  have hsplit := splitSlash_append (String.ofList key.toList.dropLast) ""
  rw [← hkey] at hsplit
  exact (h.1 "" (by rw [hsplit]; exact List.mem_append_right _ (by decide))).1 rfl

theorem AcceptedKey.trimSlashes {key : String} (hk : AcceptedKey key) : trimSlashes key = key :=
  hk.relative.trimmed.trimSlashes

theorem Trimmed.join {s t : String} (hs : Trimmed s) (ht : Trimmed t) (hne : s ≠ "") (hne' : t ≠ "") :
    Trimmed (s ++ "/" ++ t) := by
  have hs' : s.toList ≠ [] := fun hnil => hne (String.toList_inj.mp hnil)
  have ht' : t.toList ≠ [] := fun hnil => hne' (String.toList_inj.mp hnil)
  unfold Trimmed at *
  rw [not_hasPrefix_slash_iff, not_hasSuffix_slash_iff] at *
  rw [String.toList_append, String.toList_append]
  refine ⟨?_, ?_⟩
  · rw [List.append_assoc, List.head?_append_of_ne_nil _ hs']
    exact hs.1
  · rw [List.getLast?_append_of_ne_nil _ ht']
    exact ht.2

/-- Whatever is joined, no separator is left at either end. -/
theorem trimmed_joinKey (base suffix : String) : Trimmed (joinKey base suffix) := by
  unfold joinKey
  by_cases hbase : Parquex.trimSlashes base = ""
  · rw [if_pos hbase]
    exact trimmed_trimSlashes suffix
  · rw [if_neg hbase]
    by_cases hsuffix : Parquex.trimSlashes suffix = ""
    · rw [if_pos hsuffix]
      exact trimmed_trimSlashes base
    · rw [if_neg hsuffix]
      exact (trimmed_trimSlashes base).join (trimmed_trimSlashes suffix) hbase hsuffix

/-- The path of a key beneath the base. -/
def pathOf (base key : String) : String := if base = "" then key else base ++ "/" ++ key

section
variable {base key pre : String} (hb : base = "" ∨ AcceptedKey base)
include hb

theorem joinKey_relative (hk : RelativeKey key) : joinKey base key = pathOf base key := by
  unfold joinKey pathOf
  rw [hk.trimmed.trimSlashes]
  rcases hb with rfl | hb
  · rw [if_pos (by decide), if_pos rfl]
  · have hne := (acceptedKey_iff.mp hb).1
    rw [hb.trimSlashes, if_neg hne, if_neg hk.ne_empty, if_neg hne]

theorem joinKey_accepted (hk : AcceptedKey key) : joinKey base key = pathOf base key := joinKey_relative hb hk.relative

theorem joinKey_empty : joinKey base "" = base := by
  unfold joinKey
  rcases hb with rfl | hb
  · decide
  · rw [hb.trimSlashes, if_neg (acceptedKey_iff.mp hb).1, if_pos (by decide)]

theorem pathOf_segments (hk : AcceptedKey key) :
    ∀ segment ∈ splitSlash (pathOf base key), segment ≠ "" ∧ segment ≠ "." ∧ segment ≠ ".." := by
  unfold pathOf
  rcases hb with rfl | hb
  · rw [if_pos rfl]
    exact fun segment hs => hk.segment_ne hs
  · rw [if_neg (acceptedKey_iff.mp hb).1, splitSlash_append]
    intro segment hs
    rcases List.mem_append.mp hs with hs | hs
    · exact hb.segment_ne hs
    · exact hk.segment_ne hs

end

theorem pathOf_ne {base key : String} (hk : AcceptedKey key) : pathOf base key ≠ "" := by
  unfold pathOf
  split
  · exact (acceptedKey_iff.mp hk).1
  · intro he
    have := congrArg (fun s => s.toList.length) he
    simp at this

theorem pathOf_inj {base key k : String} (h : pathOf base key = pathOf base k) : key = k := by
  unfold pathOf at h
  split at h
  · exact h
  · have := congrArg String.toList h
    simp only [String.toList_append, List.append_cancel_left_eq] at this
    exact String.toList_inj.mp this

theorem hasPrefix_pathOf (base key pre : String) :
    hasPrefix (pathOf base key) (pathOf base pre ++ "/") = hasPrefix key (pre ++ "/") := by
  unfold pathOf
  split
  · rfl
  · have hassoc : base ++ "/" ++ pre ++ "/" = base ++ "/" ++ (pre ++ "/") := String.append_assoc
    rw [hassoc, hasPrefix_append_left]

theorem hasControl_append (s t : String) : hasControl (s ++ t) = (hasControl s || hasControl t) := by
  unfold hasControl
  rw [String.toList_append, List.any_append]

theorem hasControl_pathOf (base key : String) : hasControl (pathOf base key) = (hasControl base || hasControl key) := by
  unfold pathOf
  split
  · rename_i hbase
    rw [hbase]
    rfl
  · rw [hasControl_append, hasControl_append, show hasControl "/" = false by decide, Bool.or_false]

/-! ## Listings of a map -/

instance : Std.Total KeyLe := ⟨fun _ _ => le_total _ _⟩

instance : IsTrans (String × Nat) KeyLe := ⟨fun _ _ _ => le_trans⟩

/-- The entries for some keys of a map, each once in ascending order, with the sizes of their contents. -/
structure ListsKeys (objects : String → Option Bytes) (keys : String → Prop) (entries : List ObjectMetadata) : Prop where
  mem : ∀ entry, entry ∈ entries ↔ keys entry.path ∧ (objects entry.path).map List.length = some entry.size
  ascending : (entries.map ObjectMetadata.path).Pairwise (· < ·)

/-- The objects of the bucket beneath the base of the store are those of a map. -/
structure RemoteStore.HoldsMap {σ : Type} (remote : RemoteStore σ) (contents : σ → String → Option Bytes) (state : σ)
    (objects : String → Option Bytes) : Prop where
  base : remote.base = "" ∨ AcceptedKey remote.base
  mapped : ∀ key, AcceptedKey key → hasControl (pathOf remote.base key) = false →
    contents state (pathOf remote.base key) = objects key
  paths : ∀ path content, contents state path = some content →
    (remote.base = "" ∨ hasPrefix path (remote.base ++ "/") = true) →
    ∃ key, AcceptedKey key ∧ hasControl (pathOf remote.base key) = false ∧ path = pathOf remote.base key
  bare : remote.base ≠ "" → contents state remote.base = none
  keys : ∀ key content, objects key = some content → AcceptedKey key ∧ hasControl (pathOf remote.base key) = false

namespace RemoteStore

variable {σ : Type} {remote : RemoteStore σ} {contents : σ → String → Option Bytes} {choices : ServiceChoices} {state : σ}
  {objects : String → Option Bytes} {key pre : String} {content : Bytes}

section
variable (hr : remote.service.Rules contents choices) (h : remote.HoldsMap contents state objects)
  (hk : AcceptedKey key)
include hr h hk

theorem object_eq : remote.object key =
    if hasControl (pathOf remote.base key) then .error (.invalid .storeOpen "object key is invalid")
    else .ok { path := pathOf remote.base key, key := pathOf remote.base key } := by
  unfold object
  rw [joinKey_accepted h.base hk, hr.parse _ (Or.inr (pathOf_segments h.base hk))]
  by_cases hc : hasControl (pathOf remote.base key) = true
  · simp [hc]
  · simp [hc]

section
variable (hc : hasControl (pathOf remote.base key) = false)
include hc

theorem object_ok :
    remote.object key = .ok { path := pathOf remote.base key, key := pathOf remote.base key } := by
  rw [object_eq hr h hk, hc]
  rfl

theorem storeDelete_eq :
    remote.storeDelete state key = remoteCall .s3Delete (remote.service.delete state (pathOf remote.base key)) := by
  unfold storeDelete
  rw [hk.validateKey, object_ok hr h hk hc]
  rfl

end

end

/-! ## The listing -/

theorem pathOf_empty_control : hasControl (pathOf remote.base "") = hasControl remote.base := by
  rw [hasControl_pathOf, show hasControl "" = false by decide, Bool.or_false]

theorem stripMarker_path (hb : remote.base = "" ∨ AcceptedKey remote.base) (key : String) :
    remote.stripMarker (pathOf remote.base key) = key := by
  unfold stripMarker pathOf
  rcases hb with hb | hb
  · rw [hb, if_pos (by decide), if_pos rfl]
  · have hne := (acceptedKey_iff.mp hb).1
    rw [hb.trimSlashes, if_neg hne, if_neg hne, if_pos (hasPrefix_iff_append.mpr ⟨key, rfl⟩)]
    simp

/-- The keys that a listing returns: those beneath the prefix, and the prefix when the service counts it. -/
def Beneath (choices : ServiceChoices) (pre key : String) : Prop :=
  pre = "" ∨ hasPrefix key (pre ++ "/") = true ∨ (choices.listsSelf = true ∧ key = pre)

section
variable (hr : remote.service.Rules contents choices)
include hr

/-- The request for the objects beneath a prefix that is a path. -/
theorem listPrefix_path {combined : String} (hne : combined ≠ "")
    (hsegments : ∀ segment ∈ splitSlash combined, segment ≠ "" ∧ segment ≠ "." ∧ segment ≠ "..")
    (hc : hasControl combined = false) : remote.listPrefix combined = .ok (some combined) := by
  unfold listPrefix
  rw [if_neg hne, hr.parse combined (Or.inr hsegments), hc]
  rfl

omit hr in
theorem inPrefix_pathOf (key : String) :
    InPrefix choices.listsSelf (pathOf remote.base key) (some (pathOf remote.base pre)) ↔
      hasPrefix key (pre ++ "/") = true ∨ (choices.listsSelf = true ∧ key = pre) := by
  change hasPrefix _ _ = true ∨ _ ↔ _
  rw [hasPrefix_pathOf]
  exact or_congr_right (and_congr_right fun _ => ⟨pathOf_inj, congrArg _⟩)

section
variable (hb : remote.base = "" ∨ AcceptedKey remote.base)
include hb

theorem object_base : remote.object "" =
    if hasControl remote.base then .error (.invalid .storeOpen "object key is invalid")
    else .ok { path := remote.base, key := remote.base } := by
  have hsegments : remote.base = "" ∨
      ∀ segment ∈ splitSlash remote.base, segment ≠ "" ∧ segment ≠ "." ∧ segment ≠ ".." :=
    hb.imp_right fun hb segment hs => hb.segment_ne hs
  unfold object
  rw [joinKey_empty hb, hr.parse _ hsegments]
  by_cases hc : hasControl remote.base = true
  · simp [hc]
  · simp [hc]

theorem storeList_control (hpre : pre = "" ∨ AcceptedKey pre) (hc : hasControl (pathOf remote.base pre) = true) :
    ∃ failure, remote.storeList state pre = .error failure ∧ failure.category = .invalidArgument := by
  have hvalid : validateKey pre true = .ok () := by
    rcases hpre with rfl | hk
    · decide
    · exact hk.validateKey true
  unfold storeList listObject
  rw [hvalid, object_base hr hb]
  by_cases hbase : hasControl remote.base = true
  · exact ⟨.invalid .storeOpen "object key is invalid", by simp [hbase, bind, Except.bind], rfl⟩
  · refine ⟨.invalid .s3List "S3 list prefix is invalid", ?_, rfl⟩
    rcases hpre with rfl | hk
    · rw [pathOf_empty_control] at hc
      exact absurd hc hbase
    · have hlist : remote.listPrefix (joinKey remote.base pre) =
          .error (.invalid .s3List "S3 list prefix is invalid") := by
        unfold listPrefix
        rw [joinKey_accepted hb hk, if_neg (pathOf_ne hk), hr.parse _ (Or.inr (pathOf_segments hb hk)), hc]
        rfl
      rw [if_neg hbase]
      simp only [bind, Except.bind, hlist]

/-- What the service lists within a scope, in the order of the locations. -/
theorem storeList_scope (hpre : pre = "" ∨ AcceptedKey pre) (hc : hasControl (pathOf remote.base pre) = false)
    {scope : Option String} (hscope : remote.listPrefix (joinKey remote.base pre) = .ok scope) :
    ∃ found : List (String × Nat), remote.storeList state pre =
        .ok (found.map fun entry => { path := remote.stripMarker entry.1, size := entry.2 }) ∧
      found.Pairwise (fun a b => a.1 < b.1) ∧ ∀ path size, (path, size) ∈ found ↔
        InPrefix choices.listsSelf path scope ∧ (contents state path).map List.length = some size := by
  obtain ⟨found, hfound, hnodup, hmem⟩ := hr.list state scope
  have hvalid : validateKey pre true = .ok () := by
    rcases hpre with rfl | hk
    · decide
    · exact hk.validateKey true
  have hbase : hasControl remote.base = false := by
    rw [hasControl_pathOf, Bool.or_eq_false_iff] at hc
    exact hc.1
  have hobject : remote.object "" = .ok { path := remote.base, key := remote.base } := by
    rw [object_base hr hb, hbase]
    rfl
  refine ⟨found.insertionSort KeyLe, ?_, ?_, fun path size => by rw [List.mem_insertionSort, hmem]⟩
  · unfold storeList listObject
    rw [hvalid, hobject]
    simp only [bind, Except.bind, hscope, hfound, remoteCall, pure, Except.pure]
  · have hdistinct : (found.insertionSort KeyLe).Pairwise (fun a b => a.1 ≠ b.1) := by
      have hperm := (List.perm_insertionSort KeyLe found).map Prod.fst
      exact List.pairwise_map.mp (hperm.nodup_iff.mpr hnodup)
    exact ((List.pairwise_insertionSort KeyLe found).and hdistinct).imp fun hab => lt_of_le_of_ne hab.1 hab.2

end

variable (h : remote.HoldsMap contents state objects)
include h

end

end RemoteStore

end Parquex
