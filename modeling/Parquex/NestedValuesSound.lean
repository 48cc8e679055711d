import Parquex.NestedValues

/-!
# Appending nested values

Every append keeps what the builder holds and adds one term, or is refused when
the term does not have the type.
-/

namespace Parquex

theorem Term.isNil_iff {term : Term} : term.isNil = true ↔ term = .nil := by
  unfold isNil nil
  split
  · simp
  · rename_i hne
    simpa using fun he => hne _ he

/-! ## Appending -/

/-- The append takes the terms that conform, adds the form in which they come back, and refuses the others. -/
structure Appends {σ : Type} (holds : σ → List Term → Prop) (append : Term → σ → Except NativeFailure σ)
    (conforms : Term → Bool) (canonical : Term → Term) : Prop where
  accepts : ∀ {s terms term}, holds s terms → conforms term = true →
    ∃ s', append term s = .ok s' ∧ holds s' (terms ++ [canonical term])
  refuses : ∀ {s terms term}, holds s terms → conforms term = false → ∃ failure, append term s = .error failure

namespace Appends

variable {σ : Type} {holds : σ → List Term → Prop} {append : Term → σ → Except NativeFailure σ}
  {conforms : Term → Bool} {canonical : Term → Term}

theorem items_accepted (h : Appends holds append conforms canonical) {items : List Term} :
    ∀ {s : σ} {terms : List Term}, holds s terms → items.all conforms = true →
      ∃ s', items.foldlM (fun s term => append term s) s = .ok s' ∧ holds s' (terms ++ items.map canonical) := by
  induction items with
  | nil => exact fun hs _ => ⟨_, rfl, by simpa using hs⟩
  | cons term items ih =>
    intro s terms hs hall
    rw [List.all_cons, Bool.and_eq_true] at hall
    obtain ⟨s', happend, hs'⟩ := h.accepts hs hall.1
    obtain ⟨s'', hfold, hs''⟩ := ih hs' hall.2
    refine ⟨s'', ?_, by simpa using hs''⟩
    rw [List.foldlM_cons, happend]
    exact hfold

theorem items_refused (h : Appends holds append conforms canonical) {items : List Term} :
    ∀ {s : σ} {terms : List Term}, holds s terms → items.all conforms = false →
      ∃ failure, items.foldlM (fun s term => append term s) s = .error failure := by
  induction items with
  | nil => exact fun _ hall => by cases hall
  | cons term items ih =>
    intro s terms hs hall
    rw [List.foldlM_cons]
    by_cases hc : conforms term = true
    · obtain ⟨s', happend, hs'⟩ := h.accepts hs hc
      rw [List.all_cons, hc, Bool.true_and] at hall
      rw [happend]
      exact ih hs' hall
    · obtain ⟨failure, happend⟩ := h.refuses hs (Bool.eq_false_iff.mpr hc)
      rw [happend]
      exact ⟨failure, rfl⟩

end Appends

/-! ## Flat values -/

theorem encodeAt_append_lt {α : Type} {values : List (Option α)} {index : Nat} (hi : index < values.length)
    (value : Option α) (encode : α → Except (Stop NativeFailure) Term) :
    encodeAt (values ++ [value]) index encode = encodeAt values index encode := by
  unfold encodeAt
  rw [List.getElem?_append_left hi]

theorem encodeAt_append_length {α : Type} (values : List (Option α)) (value : Option α)
    (encode : α → Except (Stop NativeFailure) Term) :
    encodeAt (values ++ [value]) values.length encode = value.elim (.ok .nil) encode := by
  unfold encodeAt
  rw [List.getElem?_concat_length]
  cases value <;> rfl

section
variable {α : Type} {storage : Storage} (wrap : List (Option α) → Slots) (encode : α → Except (Stop NativeFailure) Term)
  (decode : Term → Except NativeFailure α) (hlength : ∀ values, (wrap values).length = values.length)
  (hencode : ∀ values index, encodeSlots storage (wrap values) index = encodeAt values index encode)
include hlength hencode

theorem FlatHolds.push {values : List (Option α)} {terms : List Term} (h : FlatHolds storage (wrap values) terms)
    {value : Option α} {term : Term} (hterm : value.elim (.ok .nil) encode = .ok term) :
    FlatHolds storage (wrap (values ++ [value])) (terms ++ [term]) := by
  have hlen : values.length = terms.length := by rw [← hlength, h.length]
  refine ⟨by rw [hlength, List.length_append, List.length_append, hlen]; rfl, fun index t ht => ?_⟩
  rw [hencode]
  by_cases hi : index < terms.length
  · rw [encodeAt_append_lt (by omega), ← hencode]
    exact h.encode index t (by rwa [List.getElem?_append_left hi] at ht)
  · have hlt := (List.getElem?_eq_some_iff.mp ht).1
    rw [List.length_append, List.length_singleton] at hlt
    have he : index = terms.length := by omega
    subst he
    rw [List.getElem?_concat_length] at ht
    rw [← hlen, encodeAt_append_length, hterm, Option.some.inj ht]

/-- A builder of one kind of slots appends what its terms decode to. -/
theorem appends_primitive
    (hkind : ∀ slots, storage.fills slots = true → ∃ values, slots = wrap values)
    (hfits : ∀ values, storage.fills (wrap values) = true)
    (happend : ∀ values term, appendSlots storage (wrap values) term =
      appendPrimitive values term decode >>= fun values => pure (wrap values))
    (haccept : ∀ term, storage.conforms term = true → ∃ value, decode term = .ok value ∧
      encode value = .ok (storage.canonical term))
    (hrefuse : ∀ term, storage.conforms term = false → ∃ failure, decode term = .error failure) :
    Appends (fun slots terms => storage.fills slots = true ∧ FlatHolds storage slots terms)
      (fun term slots => appendSlots storage slots term) (fun term => term.isNil || storage.conforms term)
      (fun term => if term.isNil then .nil else storage.canonical term) := by
  constructor
  · rintro slots terms term ⟨hslots, h⟩ hc
    obtain ⟨values, rfl⟩ := hkind slots hslots
    simp only [happend]
    unfold appendPrimitive
    by_cases hnil : term.isNil = true
    · rw [if_pos hnil, if_pos hnil]
      exact ⟨_, rfl, hfits _, h.push wrap encode hlength hencode rfl⟩
    · obtain ⟨value, hdecode, hvalue⟩ := haccept term (by simpa [hnil] using hc)
      rw [if_neg hnil, if_neg hnil, hdecode]
      exact ⟨_, rfl, hfits _, h.push wrap encode hlength hencode hvalue⟩
  · rintro slots terms term ⟨hslots, -⟩ hc
    obtain ⟨values, rfl⟩ := hkind slots hslots
    rw [Bool.or_eq_false_iff] at hc
    obtain ⟨failure, hdecode⟩ := hrefuse term hc.2
    refine ⟨failure, ?_⟩
    simp only [happend]
    unfold appendPrimitive
    rw [if_neg (by rw [hc.1]; decide), hdecode]
    rfl

end

theorem decodeOr_some {α : Type} {found : Option α} {value : α} {message : String} (h : found = some value) :
    decodeOr found message = .ok value := by
  rw [h]
  rfl

theorem decodeOr_none {α : Type} {found : Option α} {message : String} (h : found.isSome = false) :
    decodeOr found message = .error (invalidBatch message) := by
  cases found with
  | none => rfl
  | some value => cases h

namespace Term

variable {term : Term}

theorem eq_of_bool? {value : Bool} (h : term.bool? = some value) : term = encodeBoolean value := by
  unfold bool? at h
  split at h
  · rename_i name
    by_cases ht : name = "true"
    · rw [if_pos ht] at h
      cases h
      rw [ht]
      rfl
    · rw [if_neg ht] at h
      by_cases hf : name = "false"
      · rw [if_pos hf] at h
        cases h
        rw [hf]
        rfl
      · rw [if_neg hf] at h
        cases h
  · cases h

theorem eq_of_float? {value : Rat} (h : term.float? = some value) : term = .float value := by
  unfold float? at h
  split at h
  · cases h
    rfl
  · cases h

theorem eq_of_binary? {value : Binary} (h : term.binary? = some value) : term = .binary value := by
  unfold binary? at h
  split at h
  · cases h
    rfl
  · cases h

theorem eq_of_string? {value : String} (h : term.string? = some value) : term = .text value := by
  unfold string? at h
  split at h
  · cases h
    rfl
  · cases h

theorem eq_of_list? {items : List Term} (h : term.list? = some items) : term = .list items := by
  unfold list? at h
  split at h
  · cases h
    rfl
  · cases h

theorem eq_of_integer? {type : IntegerType} {value : Int} (h : integer? type term = some value) : term = .int value := by
  unfold integer? int? at h
  split at h
  · cases (Option.filter_eq_some_iff.mp h).1
    rfl
  · cases h

end Term

theorem decodeDecimal_ok {lower upper : Int} {term : Term}
    (h : (Storage.decimal lower upper).conforms term = true) :
    ∃ value, decodeDecimal lower upper term = .ok value ∧
      (Storage.decimal lower upper).canonical term = .text (toString value) := by
  obtain ⟨value, hvalue, hbounds⟩ := (Option.any_eq_true _ _).mp h
  obtain ⟨text, htext, hparse⟩ := Option.bind_eq_some_iff.mp hvalue
  refine ⟨value, ?_, ?_⟩
  · unfold decodeDecimal
    rw [decodeOr_some htext]
    exact decodeOr_some (Option.filter_eq_some_iff.mpr ⟨hparse, hbounds⟩)
  · change ((term.string?.bind parseInt).map fun value => Term.text (toString value)).getD term = _
    rw [hvalue]
    rfl

theorem decodeDecimal_error {lower upper : Int} {term : Term}
    (h : (Storage.decimal lower upper).conforms term = false) :
    ∃ failure, decodeDecimal lower upper term = .error failure := by
  change (term.string?.bind parseInt).any _ = false at h
  unfold decodeDecimal
  cases ht : term.string? with
  | none => exact ⟨_, rfl⟩
  | some text =>
    rw [ht] at h
    exact ⟨_, decodeOr_none (by rw [Option.isSome_filter]; exact h)⟩

theorem decodeFixedBinary_ok {length : Int} {term : Term} (h : (Storage.fixedBinary length).conforms term = true) :
    ∃ value, decodeFixedBinary length term = .ok value ∧ term = .binary value := by
  obtain ⟨value, hvalue, hsize⟩ := (Option.any_eq_true _ _).mp h
  refine ⟨value, ?_, Term.eq_of_binary? hvalue⟩
  unfold decodeFixedBinary
  rw [decodeOr_some hvalue]
  exact if_pos (of_decide_eq_true hsize)

theorem decodeFixedBinary_error {length : Int} {term : Term} (h : (Storage.fixedBinary length).conforms term = false) :
    ∃ failure, decodeFixedBinary length term = .error failure := by
  change term.binary?.any _ = false at h
  unfold decodeFixedBinary
  cases ht : term.binary? with
  | none => exact ⟨_, rfl⟩
  | some value =>
    rw [ht] at h
    exact ⟨_, if_neg (of_decide_eq_false h)⟩

/-- The slots of a flat column, whatever it stores. -/
theorem appendSlots_appends {storage : Storage} (hs : storage ≠ .unsupported) :
    Appends (fun slots terms => storage.fills slots = true ∧ FlatHolds storage slots terms)
      (fun term slots => appendSlots storage slots term) (fun term => term.isNil || storage.conforms term)
      (fun term => if term.isNil then .nil else storage.canonical term) := by
  have hoption : ∀ {α : Type} {found : Option α} {message : String}, found.isSome = false →
      ∃ failure, decodeOr found message = .error failure := fun h => ⟨_, decodeOr_none h⟩
  cases storage with
  | null =>
    constructor
    · rintro slots terms term ⟨hslots, hlength, hencode⟩ hc
      cases slots with
      | nulls length =>
        have hnil : term.isNil = true := by rwa [show Storage.null.conforms term = false from rfl, Bool.or_false] at hc
        refine ⟨.nulls (length + 1), if_pos hnil, rfl, ?_, fun index t ht => ?_⟩
        · rw [List.length_append, ← hlength]
          rfl
        · have hlen : length = terms.length := hlength
          have hlt := (List.getElem?_eq_some_iff.mp ht).1
          rw [List.length_append, List.length_singleton, ← hlen] at hlt
          have hslot : encodeSlots .null (.nulls (length + 1)) index = .ok .nil := if_pos hlt
          rw [hslot]
          by_cases hi : index < terms.length
          · rw [List.getElem?_append_left hi] at ht
            have hold : encodeSlots .null (.nulls length) index = .ok .nil := if_pos (by omega)
            rw [← hold]
            exact hencode index t ht
          · have he : index = terms.length := by omega
            rw [he, List.getElem?_concat_length, if_pos hnil] at ht
            exact congrArg Except.ok (Option.some.inj ht)
      | _ => cases hslots
    · rintro slots terms term ⟨hslots, -⟩ hc
      cases slots with
      | nulls length =>
        rw [Bool.or_eq_false_iff] at hc
        exact ⟨_, if_neg (by rw [hc.1]; decide)⟩
      | _ => cases hslots
  | boolean =>
    refine appends_primitive .booleans (fun value => .ok (encodeBoolean value))
      (fun term => decodeOr term.bool? "batch value has the wrong type") (fun _ => rfl) (fun _ _ => rfl)
      (fun slots hslots => ?_) (fun _ => rfl) (fun _ _ => rfl) (fun term hc => ?_) fun term hc => hoption hc
    · cases slots <;> first | cases hslots; done | exact ⟨_, rfl⟩
    · obtain ⟨value, hvalue⟩ := Option.isSome_iff_exists.mp hc
      exact ⟨value, decodeOr_some hvalue, congrArg Except.ok (Term.eq_of_bool? hvalue).symm⟩
  | integer type =>
    refine appends_primitive .integers (fun value => .ok (.int value))
      (fun term => decodeOr (integer? type term) "batch value has the wrong type") (fun _ => rfl) (fun _ _ => rfl)
      (fun slots hslots => ?_) (fun _ => rfl) (fun _ _ => rfl) (fun term hc => ?_) fun term hc => hoption hc
    · cases slots <;> first | cases hslots; done | exact ⟨_, rfl⟩
    · obtain ⟨value, hvalue⟩ := Option.isSome_iff_exists.mp hc
      exact ⟨value, decodeOr_some hvalue, congrArg Except.ok (Term.eq_of_integer? hvalue).symm⟩
  | float32 =>
    refine appends_primitive .floats encodeFloat
      (fun term => decodeOr ((term.float?.bind float32?).map Double.finite) "batch value has the wrong type")
      (fun _ => rfl) (fun _ _ => rfl) (fun slots hslots => ?_) (fun _ => rfl) (fun _ _ => rfl) (fun term hc => ?_)
      fun term hc => hoption (by rw [Option.isSome_map]; exact hc)
    · cases slots <;> first | cases hslots; done | exact ⟨_, rfl⟩
    · obtain ⟨value, hvalue⟩ := Option.isSome_iff_exists.mp hc
      refine ⟨.finite value, decodeOr_some (by rw [hvalue]; rfl), ?_⟩
      change Except.ok (Term.float value) = Except.ok (((term.float?.bind float32?).map Term.float).getD term)
      rw [hvalue]
      rfl
  | float64 =>
    refine appends_primitive .floats encodeFloat
      (fun term => decodeOr (term.float?.map Double.finite) "batch value has the wrong type")
      (fun _ => rfl) (fun _ _ => rfl) (fun slots hslots => ?_) (fun _ => rfl) (fun _ _ => rfl) (fun term hc => ?_)
      fun term hc => hoption (by rw [Option.isSome_map]; exact hc)
    · cases slots <;> first | cases hslots; done | exact ⟨_, rfl⟩
    · obtain ⟨value, hvalue⟩ := Option.isSome_iff_exists.mp hc
      exact ⟨.finite value, decodeOr_some (by rw [hvalue]; rfl), congrArg Except.ok (Term.eq_of_float? hvalue).symm⟩
  | decimal lower upper =>
    refine appends_primitive .integers (fun value => .ok (.text (toString value))) (decodeDecimal lower upper)
      (fun _ => rfl) (fun _ _ => rfl) (fun slots hslots => ?_) (fun _ => rfl) (fun _ _ => rfl) (fun term hc => ?_)
      fun term hc => decodeDecimal_error hc
    · cases slots <;> first | cases hslots; done | exact ⟨_, rfl⟩
    · obtain ⟨value, hdecode, hcanonical⟩ := decodeDecimal_ok hc
      exact ⟨value, hdecode, by rw [hcanonical]⟩
  | string =>
    refine appends_primitive .strings (fun value => .ok (.text value))
      (fun term => decodeOr term.string? "expected a string") (fun _ => rfl) (fun _ _ => rfl)
      (fun slots hslots => ?_) (fun _ => rfl) (fun _ _ => rfl) (fun term hc => ?_) fun term hc => hoption hc
    · cases slots <;> first | cases hslots; done | exact ⟨_, rfl⟩
    · obtain ⟨value, hvalue⟩ := Option.isSome_iff_exists.mp hc
      exact ⟨value, decodeOr_some hvalue, congrArg Except.ok (Term.eq_of_string? hvalue).symm⟩
  | binary =>
    refine appends_primitive .binaries (fun value => .ok (.binary value))
      (fun term => decodeOr term.binary? "expected a binary") (fun _ => rfl) (fun _ _ => rfl)
      (fun slots hslots => ?_) (fun _ => rfl) (fun _ _ => rfl) (fun term hc => ?_) fun term hc => hoption hc
    · cases slots <;> first | cases hslots; done | exact ⟨_, rfl⟩
    · obtain ⟨value, hvalue⟩ := Option.isSome_iff_exists.mp hc
      exact ⟨value, decodeOr_some hvalue, congrArg Except.ok (Term.eq_of_binary? hvalue).symm⟩
  | fixedBinary length =>
    refine appends_primitive .binaries (fun value => .ok (.binary value)) (decodeFixedBinary length)
      (fun _ => rfl) (fun _ _ => rfl) (fun slots hslots => ?_) (fun _ => rfl) (fun _ _ => rfl) (fun term hc => ?_)
      fun term hc => decodeFixedBinary_error hc
    · cases slots <;> first | cases hslots; done | exact ⟨_, rfl⟩
    · obtain ⟨value, hdecode, hvalue⟩ := decodeFixedBinary_ok hc
      exact ⟨value, hdecode, congrArg Except.ok hvalue.symm⟩
  | unsupported => exact absurd rfl hs

/-- A null padded from above is the null that a value would append. -/
theorem appendNullSlots_eq {storage : Storage} (hs : storage ≠ .unsupported) (slots : Slots) :
    appendNullSlots storage slots = appendSlots storage slots .nil := by
  cases storage with
  | unsupported => exact absurd rfl hs
  | _ => cases slots <;> rfl

/-! ## Items -/

theorem ofGroup_append (groups : List (Option (List Term))) (group : Option (List Term)) :
    (groups ++ [group]).map ofGroup = groups.map ofGroup ++ [ofGroup group] := by
  rw [List.map_append, List.map_singleton]

/-- One more group of a list array, whose items have been appended. -/
theorem GroupsHold.push {offsets : List Nat} {valid : List Bool} {terms items : List Term}
    (group : Option (List Term)) {values values' : List Term → Prop} (hitems : items = group.getD []) {length : Nat}
    (h : GroupsHold offsets valid terms values) (hlength : ∀ held, values' held → held.length = length)
    (hvalues : ∀ held, values held → values' (held ++ items)) :
    GroupsHold (offsets ++ [length]) (valid ++ [group.isSome]) (terms ++ [ofGroup group]) values' := by
  obtain ⟨groups, rfl, rfl, hoffsets, hstarts, hheld⟩ := h
  have hflat : ((groups ++ [group]).map (·.getD [])).flatten = (groups.map (·.getD [])).flatten ++ items := by
    rw [List.map_append, List.flatten_append, List.map_singleton, List.flatten_singleton, hitems]
  refine ⟨groups ++ [group], (ofGroup_append groups group).symm, by rw [List.map_append, List.map_singleton],
    by rw [List.length_append, List.length_append, hoffsets]; rfl, fun index hi => ?_, ?_⟩
  · rw [List.length_append, List.length_singleton] at hi
    by_cases hlast : index ≤ groups.length
    · rw [List.take_append_of_le_length hlast, ← hstarts index hlast, List.getD_eq_getElem?_getD,
        List.getD_eq_getElem?_getD, List.getElem?_append_left (by omega)]
    · have he : index = offsets.length := by omega
      rw [List.take_of_length_le (by rw [List.length_append, List.length_singleton]; omega), hflat,
        hlength _ (hvalues _ hheld), he, List.getD_eq_getElem?_getD, List.getElem?_concat_length]
      rfl
  · rw [hflat]
    exact hvalues _ hheld

theorem FixedGroupsHold.push {length : Nat} {valid : List Bool} {terms items : List Term}
    (group : Option (List Term)) {values values' : List Term → Prop}
    (hitems : items = group.getD (List.replicate length .nil)) (hlength : items.length = length)
    (h : FixedGroupsHold length valid terms values) (hvalues : ∀ held, values held → values' (held ++ items)) :
    FixedGroupsHold length (valid ++ [group.isSome]) (terms ++ [ofGroup group]) values' := by
  obtain ⟨groups, rfl, rfl, hgroups, hheld⟩ := h
  refine ⟨groups ++ [group], (ofGroup_append groups group).symm, by rw [List.map_append, List.map_singleton],
    fun found hfound => ?_, ?_⟩
  · rcases List.mem_append.mp hfound with hfound | hfound
    · exact hgroups found hfound
    · rw [← List.mem_singleton.mp hfound] at hitems
      rw [← hlength, hitems]
      rfl
  · rw [List.map_append, List.flatten_append, List.map_singleton, List.flatten_singleton, ← hitems]
    exact hvalues _ hheld

theorem Holds.length {dataType : DataType} {array : ArrowArray} {terms : List Term} (h : Holds dataType array terms) :
    array.length = terms.length := by
  cases dataType with
  | scalar type =>
    cases array with
    | flat type' slots =>
      obtain ⟨-, -, hflat⟩ := h
      exact hflat.length
    | _ => cases h
  | list field =>
    obtain ⟨name, dataType, nullable⟩ := field
    cases array with
    | list large item offsets valid values =>
      cases large with
      | false =>
        obtain ⟨groups, rfl, rfl, -⟩ := h
        simp [ArrowArray.length]
      | true => cases h
    | _ => cases h
  | largeList field =>
    obtain ⟨name, dataType, nullable⟩ := field
    cases array with
    | list large item offsets valid values =>
      cases large with
      | true =>
        obtain ⟨groups, rfl, rfl, -⟩ := h
        simp [ArrowArray.length]
      | false => cases h
    | _ => cases h
  | fixedSizeList field length =>
    obtain ⟨name, dataType, nullable⟩ := field
    cases array with
    | fixedSizeList item listLength valid values =>
      obtain ⟨-, groups, rfl, rfl, -⟩ := h
      simp [ArrowArray.length]
    | _ => cases h
  | struct fields =>
    cases array with
    | struct fields' valid columns =>
      obtain ⟨-, rows, rfl, rfl, -⟩ := h
      simp [ArrowArray.length]
    | _ => cases h

theorem DataType.supported_scalar {type : ScalarType} (h : (DataType.scalar type).supported = true) :
    type.storage ≠ .unsupported := by
  intro he
  unfold DataType.supported at h
  rw [he] at h
  cases h

/-! ## Null padding -/

theorem repeatStep_holds {holds : ArrowArray → List Term → Prop} {step : ArrowArray → Except NativeFailure ArrowArray}
    (hstep : ∀ {s terms}, holds s terms → ∃ s', step s = .ok s' ∧ holds s' (terms ++ [.nil])) (n : Nat) :
    ∀ {s terms}, holds s terms → ∃ s', repeatStep step n s = .ok s' ∧ holds s' (terms ++ List.replicate n .nil) := by
  induction n with
  | zero => exact fun hs => ⟨_, rfl, by simpa using hs⟩
  | succ n ih =>
    intro s terms hs
    obtain ⟨s', happend, hs'⟩ := hstep hs
    obtain ⟨s'', hrepeat, hs''⟩ := ih hs'
    refine ⟨s'', ?_, ?_⟩
    · rw [repeatStep, happend]
      exact hrepeat
    · rw [List.append_assoc] at hs''
      exact hs''

mutual
theorem appendNull_holds : ∀ (dataType : DataType) {array : ArrowArray} {terms : List Term},
    dataType.supported = true → Holds dataType array terms →
      ∃ array', appendNull dataType array = .ok array' ∧ Holds dataType array' (terms ++ [.nil])
  | .scalar type, .flat type' slots, terms, hw, ⟨htype, hslots, hflat⟩ => by
    have hs := DataType.supported_scalar hw
    obtain ⟨slots', happend, hslots', hflat'⟩ : ∃ slots', appendSlots type.storage slots .nil = .ok slots' ∧
        type.storage.fills slots' = true ∧ FlatHolds type.storage slots' (terms ++ [.nil]) :=
      (appendSlots_appends hs).accepts ⟨hslots, hflat⟩ rfl
    refine ⟨.flat type' slots', ?_, htype, hslots', hflat'⟩
    rw [appendNull, appendNullSlots_eq hs, happend]
    rfl
  | .list (.mk _ dataType _), .list false item offsets valid values, terms, hw, h => by
    refine ⟨_, rfl, ?_⟩
    exact GroupsHold.push none rfl h (fun held hv => hv.length.symm) fun held hv => by simpa using hv
  | .largeList (.mk _ dataType _), .list true item offsets valid values, terms, hw, h => by
    refine ⟨_, rfl, ?_⟩
    exact GroupsHold.push none rfl h (fun held hv => hv.length.symm) fun held hv => by simpa using hv
  | .fixedSizeList (.mk _ dataType _) length, .fixedSizeList item listLength valid values, terms, hw, h => by
    rw [DataType.supported] at hw
    obtain ⟨hlength, hgroups⟩ := h
    have hstep : ∀ {array : ArrowArray} {held : List Term}, Holds dataType array held →
        ∃ array', appendNull dataType array = .ok array' ∧ Holds dataType array' (held ++ [.nil]) :=
      fun hv => appendNull_holds dataType hw hv
    obtain ⟨_, -, -, -, hheld⟩ := id hgroups
    obtain ⟨values', happend, -⟩ := repeatStep_holds hstep length.toNat hheld
    refine ⟨.fixedSizeList item listLength (valid ++ [false]) values', ?_, hlength, ?_⟩
    · rw [appendNull, happend]
      rfl
    · refine FixedGroupsHold.push none rfl List.length_replicate hgroups fun held hv => ?_
      obtain ⟨s, hs, hheld'⟩ := repeatStep_holds hstep length.toNat hv
      cases happend.symm.trans hs
      exact hheld'
  | .struct fields, .struct fields' valid columns, terms, hw, ⟨hfields, rows, hterms, hvalid, hcolumns⟩ => by
    rw [DataType.supported] at hw
    obtain ⟨columns', happend, hcolumns'⟩ := appendNulls_hold fields hw hcolumns
    refine ⟨.struct fields' (valid ++ [false]) columns', ?_, hfields, rows ++ [none], ?_, ?_, ?_⟩
    · rw [appendNull, happend]
      rfl
    · rw [hterms, List.map_append]
      rfl
    · rw [hvalid, List.map_append]
      rfl
    · rw [List.map_append]
      exact hcolumns'

theorem appendNulls_hold : ∀ (fields : List Field) {columns : List ArrowArray} {rows : List (List Term)},
    supportedFields fields = true → HoldsColumns fields columns rows →
      ∃ columns', appendNulls fields columns = .ok columns' ∧ HoldsColumns fields columns' (rows ++ [[]])
  | [], [], rows, _, _ => ⟨[], rfl, trivial⟩
  | .mk _ dataType _ :: fields, column :: columns, rows, hw, ⟨hcolumn, hcolumns⟩ => by
    rw [supportedFields, Bool.and_eq_true] at hw
    obtain ⟨column', happend, hcolumn'⟩ := appendNull_holds dataType hw.1 hcolumn
    obtain ⟨columns', happends, hcolumns'⟩ := appendNulls_hold fields hw.2 hcolumns
    refine ⟨column' :: columns', ?_, ?_, ?_⟩
    · rw [appendNulls, happend]
      simp only [happends, bind, Except.bind, pure, Except.pure]
    · rw [List.map_append]
      exact hcolumn'
    · rw [List.map_append]
      exact hcolumns'
end

/-! ## Values -/

section
variable {holds : ArrowArray → List Term → Prop} {append : Term → ArrowArray → Except NativeFailure ArrowArray}
  {conforms : Term → Bool} {canonical : Term → Term} {term : Term} {values : ArrowArray}
  (h : Appends holds append conforms canonical)
include h

/-- Items appended to the values of a list, which hold as many more terms whatever they held. -/
theorem Appends.items_extend {items : List Term} (hall : items.all conforms = true) {held : List Term}
    (hv : holds values held) :
    ∃ values', items.foldlM (fun values item => append item values) values = .ok values' ∧
      ∀ held, holds values held → holds values' (held ++ items.map canonical) := by
  obtain ⟨values', hfold, -⟩ := h.items_accepted hv hall
  refine ⟨values', hfold, fun held hheld => ?_⟩
  obtain ⟨values'', hfold', hheld'⟩ := h.items_accepted hheld hall
  cases hfold.symm.trans hfold'
  exact hheld'

theorem groups_append (hlength : ∀ {array terms}, holds array terms → array.length = terms.length)
    {offsets : List Nat} {valid : List Bool} {terms : List Term} (hg : GroupsHold offsets valid terms (holds values))
    (hterm : term.isNil = true ∨ (term.list?.any fun items => items.all conforms) = true) :
    ∃ isValid values', appendItems append term values = .ok (isValid, values') ∧
      GroupsHold (offsets ++ [values'.length]) (valid ++ [isValid])
        (terms ++ [if term.isNil then .nil else .list ((term.list?.getD []).map canonical)]) (holds values') := by
  unfold appendItems
  by_cases hnil : term.isNil = true
  · rw [if_pos hnil, if_pos hnil]
    refine ⟨false, values, rfl, ?_⟩
    exact GroupsHold.push none rfl hg (fun held hv => (hlength hv).symm) fun held hv => by simpa using hv
  · obtain ⟨items, hitems, hall⟩ := (Option.any_eq_true _ _).mp (hterm.resolve_left hnil)
    obtain ⟨_, -, -, -, -, hheld⟩ := id hg
    obtain ⟨values', hfold, hextend⟩ := h.items_extend hall hheld
    rw [if_neg hnil, if_neg hnil, decodeOr_some hitems, hitems]
    refine ⟨true, values', ?_, ?_⟩
    · exact except_bind_eq_ok.mpr ⟨items, rfl, except_bind_eq_ok.mpr ⟨values', hfold, rfl⟩⟩
    · exact GroupsHold.push (some (items.map canonical)) rfl hg (fun held hv => (hlength hv).symm) hextend

theorem groups_refuse {offsets : List Nat} {valid : List Bool} {terms : List Term}
    (hg : GroupsHold offsets valid terms (holds values)) (hnil : term.isNil = false)
    (hterm : (term.list?.any fun items => items.all conforms) = false) :
    ∃ failure, appendItems append term values = .error failure := by
  unfold appendItems
  rw [if_neg (by rw [hnil]; decide)]
  cases hitems : term.list? with
  | none => exact ⟨_, rfl⟩
  | some items =>
    rw [hitems] at hterm
    obtain ⟨_, -, -, -, -, hheld⟩ := hg
    obtain ⟨failure, hfold⟩ := h.items_refused hheld hterm
    refine ⟨failure, ?_⟩
    change (items.foldlM (fun values item => append item values) values >>= fun values => pure (true, values)) = _
    rw [hfold]
    rfl

end

theorem appendValue_null {dataType : DataType} {nullable : Bool} {term : Term} {array : ArrowArray}
    (h : (term.isNil && !nullable) = true) :
    appendValue dataType nullable term array = .error (invalidBatch "null value violates a non-nullable field") := by
  unfold appendValue
  rw [if_pos h]

/-- The nulls of a field are taken when they are allowed, before its values are. -/
theorem appends_nullable {dataType : DataType} {nullable : Bool} {holds : ArrowArray → List Term → Prop}
    {conforms : Term → Bool} {canonical : Term → Term}
    (haccept : ∀ {array terms term}, holds array terms → ¬ (term.isNil && !nullable) = true →
      term.isNil = true ∨ conforms term = true →
        ∃ array', appendValue dataType nullable term array = .ok array' ∧ holds array' (terms ++ [canonical term]))
    (hrefuse : ∀ {array terms term}, holds array terms → ¬ (term.isNil && !nullable) = true →
      term.isNil = false → conforms term = false →
        ∃ failure, appendValue dataType nullable term array = .error failure) :
    Appends holds (appendValue dataType nullable) (fun term => if term.isNil then nullable else conforms term)
      canonical := by
  constructor
  · intro array terms term h hc
    by_cases hnil : term.isNil = true
    · rw [if_pos hnil] at hc
      exact haccept h (by simp [hc]) (Or.inl hnil)
    · rw [if_neg hnil] at hc
      exact haccept h (by simp [hnil]) (Or.inr hc)
  · intro array terms term h hc
    by_cases hnil : term.isNil = true
    · rw [if_pos hnil] at hc
      exact ⟨_, appendValue_null (by simp [hnil, hc])⟩
    · rw [if_neg hnil] at hc
      exact hrefuse h (by simp [hnil]) (by simpa using hnil) hc

theorem Term.isMap_of_mapGet {term value : Term} {key : String} (h : term.mapGet key = some value) :
    term.isMap = true := by
  cases term with
  | map entries => rfl
  | _ => cases h

/-- A struct of at least one field takes only maps. -/
theorem isMap_of_conformsFields {fields : List Field} (hne : fields.isEmpty = false) {term : Term}
    (h : conformsFields fields term = true) : term.isMap = true := by
  cases fields with
  | nil => cases hne
  | cons field fields =>
    obtain ⟨name, dataType, nullable⟩ := field
    rw [conformsFields, Bool.and_eq_true] at h
    obtain ⟨value, hvalue, -⟩ := (Option.any_eq_true _ _).mp h.1
    exact Term.isMap_of_mapGet hvalue

theorem fixedItems_append {holds : ArrowArray → List Term → Prop}
    {append : Term → ArrowArray → Except NativeFailure ArrowArray} {conforms : Term → Bool} {canonical : Term → Term}
    (h : Appends holds append conforms canonical) {length : Int} {values : ArrowArray} {valid : List Bool}
    {terms items : List Term} (hg : FixedGroupsHold length.toNat valid terms (holds values))
    (hlength : (items.length : Int) = length) (hall : items.all conforms = true) :
    ∃ values', items.foldlM (fun values item => append item values) values = .ok values' ∧
      FixedGroupsHold length.toNat (valid ++ [true]) (terms ++ [.list (items.map canonical)]) (holds values') := by
  obtain ⟨_, -, -, -, hheld⟩ := id hg
  obtain ⟨values', hfold, hextend⟩ := h.items_extend hall hheld
  refine ⟨values', hfold, ?_⟩
  have hlen : (items.map canonical).length = length.toNat := by
    rw [List.length_map]
    omega
  exact FixedGroupsHold.push (some (items.map canonical)) rfl hlen hg hextend

/-- A null of a fixed list takes the place of a whole group. -/
theorem fixedNull_append (dataType : DataType) (hs : dataType.supported = true) {length : Nat} {values : ArrowArray}
    {valid : List Bool} {terms : List Term} (hg : FixedGroupsHold length valid terms (Holds dataType values)) :
    ∃ values', repeatStep (appendNull dataType) length values = .ok values' ∧
      FixedGroupsHold length (valid ++ [false]) (terms ++ [.nil]) (Holds dataType values') := by
  have hstep : ∀ {array : ArrowArray} {held : List Term}, Holds dataType array held →
      ∃ array', appendNull dataType array = .ok array' ∧ Holds dataType array' (held ++ [.nil]) :=
    fun hv => appendNull_holds dataType hs hv
  obtain ⟨_, -, -, -, hheld⟩ := id hg
  obtain ⟨values', happend, -⟩ := repeatStep_holds hstep length hheld
  refine ⟨values', happend, ?_⟩
  refine FixedGroupsHold.push none rfl List.length_replicate hg fun held hv => ?_
  obtain ⟨s, hs, hheld'⟩ := repeatStep_holds hstep length hv
  cases happend.symm.trans hs
  exact hheld'

mutual
theorem appendValue_appends : ∀ (dataType : DataType) (nullable : Bool), dataType.supported = true →
    dataType.regular = true →
      Appends (Holds dataType) (appendValue dataType nullable) (conforms dataType nullable) (canonical dataType)
  | .scalar type, nullable, hs, _ => by
    have happends := appendSlots_appends (DataType.supported_scalar hs)
    refine appends_nullable (fun {array terms term} h hnull hterm => ?_)
      fun {array terms term} h hnull hnil hterm => ?_
    · cases array with
      | flat type' slots =>
        obtain ⟨htype, hslots, hflat⟩ := h
        obtain ⟨slots', happend, hslots', hflat'⟩ := happends.accepts ⟨hslots, hflat⟩ (by simpa using hterm)
        refine ⟨.flat type' slots', ?_, htype, hslots', hflat'⟩
        rw [appendValue, if_neg hnull]
        exact except_map_eq_ok.mpr ⟨slots', happend, rfl⟩
      | _ => cases h
    · cases array with
      | flat type' slots =>
        obtain ⟨htype, hslots, hflat⟩ := h
        have hboth : (term.isNil || type.storage.conforms term) = false := by rw [hnil, hterm]; rfl
        obtain ⟨failure, happend⟩ := happends.refuses ⟨hslots, hflat⟩ hboth
        refine ⟨failure, ?_⟩
        rw [appendValue, if_neg hnull]
        simp only [happend]
        rfl
      | _ => cases h
  | .list (.mk name dataType itemNullable), nullable, hs, hr => by
    have happends := appendValue_appends dataType itemNullable hs hr
    refine appends_nullable (fun {array terms term} h hnull hterm => ?_)
      fun {array terms term} h hnull hnil hterm => ?_
    · cases array with
      | list large item offsets valid values =>
        cases large with
        | false =>
          obtain ⟨isValid, values', hitems, hg⟩ := groups_append happends (fun hv => hv.length) h hterm
          refine ⟨.list false item (offsets ++ [values'.length]) (valid ++ [isValid]) values', ?_, hg⟩
          rw [appendValue, if_neg hnull]
          exact except_bind_eq_ok.mpr ⟨_, hitems, rfl⟩
        | true => cases h
      | _ => cases h
    · cases array with
      | list large item offsets valid values =>
        cases large with
        | false =>
          obtain ⟨failure, hitems⟩ := groups_refuse happends h hnil hterm
          refine ⟨failure, ?_⟩
          rw [appendValue, if_neg hnull]
          simp only [hitems]
          rfl
        | true => cases h
      | _ => cases h
  | .largeList (.mk name dataType itemNullable), nullable, hs, hr => by
    have happends := appendValue_appends dataType itemNullable hs hr
    refine appends_nullable (fun {array terms term} h hnull hterm => ?_)
      fun {array terms term} h hnull hnil hterm => ?_
    · cases array with
      | list large item offsets valid values =>
        cases large with
        | true =>
          obtain ⟨isValid, values', hitems, hg⟩ := groups_append happends (fun hv => hv.length) h hterm
          refine ⟨.list true item (offsets ++ [values'.length]) (valid ++ [isValid]) values', ?_, hg⟩
          rw [appendValue, if_neg hnull]
          exact except_bind_eq_ok.mpr ⟨_, hitems, rfl⟩
        | false => cases h
      | _ => cases h
    · cases array with
      | list large item offsets valid values =>
        cases large with
        | true =>
          obtain ⟨failure, hitems⟩ := groups_refuse happends h hnil hterm
          refine ⟨failure, ?_⟩
          rw [appendValue, if_neg hnull]
          simp only [hitems]
          rfl
        | false => cases h
      | _ => cases h
  | .fixedSizeList (.mk name dataType itemNullable) length, nullable, hs, hr => by
    rw [DataType.regular, Bool.and_eq_true] at hr
    have happends := appendValue_appends dataType itemNullable hs hr.2
    refine appends_nullable (fun {array terms term} h hnull hterm => ?_)
      fun {array terms term} h hnull hnil hterm => ?_
    · cases array with
      | fixedSizeList item listLength valid values =>
        obtain ⟨hlength, hg⟩ := h
        rw [appendValue, if_neg hnull, canonical]
        by_cases hnil : term.isNil = true
        · obtain ⟨values', happend, hg'⟩ := fixedNull_append dataType hs hg
          rw [if_pos hnil, if_pos hnil]
          exact ⟨_, except_map_eq_ok.mpr ⟨values', happend, rfl⟩, hlength, hg'⟩
        · obtain ⟨items, hitems, hall⟩ := (Option.any_eq_true _ _).mp (hterm.resolve_left hnil)
          rw [Bool.and_eq_true, decide_eq_true_iff] at hall
          obtain ⟨values', hfold, hg'⟩ := fixedItems_append happends hg hall.1 hall.2
          rw [if_neg hnil, if_neg hnil, hitems]
          refine ⟨.fixedSizeList item listLength (valid ++ [true]) values', ?_, hlength, hg'⟩
          refine except_bind_eq_ok.mpr ⟨items, rfl, ?_⟩
          rw [if_neg (not_not_intro hall.1)]
          exact except_bind_eq_ok.mpr ⟨values', hfold, rfl⟩
      | _ => cases h
    · cases array with
      | fixedSizeList item listLength valid values =>
        obtain ⟨-, _, -, -, -, hheld⟩ := h
        rw [appendValue, if_neg hnull, if_neg (by rw [hnil]; decide)]
        cases hitems : term.list? with
        | none => exact ⟨_, rfl⟩
        | some items =>
          rw [hitems, Option.any_some, Bool.and_eq_false_iff, decide_eq_false_iff_not] at hterm
          by_cases hlength : (items.length : Int) = length
          · obtain ⟨failure, hfold⟩ := happends.items_refused hheld (hterm.resolve_left (not_not_intro hlength))
            refine ⟨failure, ?_⟩
            simp only [decodeOr, ne_eq, hlength, not_true_eq_false, if_false, hfold, bind, Except.bind]
          · refine ⟨invalidBatch "fixed list has the wrong length", ?_⟩
            simp only [decodeOr, ne_eq, hlength, not_false_eq_true, if_true, bind, Except.bind]
            rfl
      | _ => cases h
  | .struct fields, nullable, hs, hr => by
    rw [DataType.supported] at hs
    rw [DataType.regular, Bool.and_eq_true, Bool.not_eq_true'] at hr
    refine appends_nullable (fun {array terms term} h hnull hterm => ?_)
      fun {array terms term} h hnull hnil hterm => ?_
    · cases array with
      | struct fields' valid columns =>
        obtain ⟨hfields, rows, hterms, hvalid, hcolumns⟩ := h
        rw [appendValue, if_neg hnull, canonical]
        by_cases hnil : term.isNil = true
        · obtain ⟨columns', happend, hcolumns'⟩ := appendNulls_hold fields hs hcolumns
          rw [if_pos hnil, if_pos hnil]
          refine ⟨.struct fields' (valid ++ [false]) columns', except_map_eq_ok.mpr ⟨columns', happend, rfl⟩, hfields,
            rows ++ [none], ?_, ?_, ?_⟩
          · rw [hterms, List.map_append]
            rfl
          · rw [hvalid, List.map_append]
            rfl
          · rw [List.map_append]
            exact hcolumns'
        · have hmap := hterm.resolve_left hnil
          rw [Bool.and_eq_true] at hmap
          obtain ⟨columns', happend, hcolumns'⟩ := (appendFields_append fields hs hr.2 term hcolumns).1 hmap.2
          rw [if_neg hnil, if_neg hnil]
          refine ⟨.struct fields' (valid ++ [true]) columns', except_map_eq_ok.mpr ⟨columns', happend, rfl⟩, hfields,
            rows ++ [some (canonicalFields fields term)], ?_, ?_, ?_⟩
          · rw [hterms, List.map_append]
            rfl
          · rw [hvalid, List.map_append]
            rfl
          · rw [List.map_append]
            exact hcolumns'
      | _ => cases h
    · cases array with
      | struct fields' valid columns =>
        obtain ⟨-, rows, -, -, hcolumns⟩ := h
        have hrefused : conformsFields fields term = false := by
          by_contra hc
          rw [Bool.not_eq_false] at hc
          rw [isMap_of_conformsFields hr.1 hc, hc] at hterm
          cases hterm
        obtain ⟨failure, happend⟩ := (appendFields_append fields hs hr.2 term hcolumns).2 hrefused
        refine ⟨failure, ?_⟩
        rw [appendValue, if_neg hnull, if_neg (by rw [hnil]; decide)]
        simp only [happend, bind, Except.bind]
      | _ => cases h

theorem appendFields_append : ∀ (fields : List Field), supportedFields fields = true → regularFields fields = true →
    ∀ (term : Term) {columns : List ArrowArray} {rows : List (List Term)}, HoldsColumns fields columns rows →
      (conformsFields fields term = true → ∃ columns', appendFields fields term columns = .ok columns' ∧
        HoldsColumns fields columns' (rows ++ [canonicalFields fields term])) ∧
      (conformsFields fields term = false → ∃ failure, appendFields fields term columns = .error failure)
  | [], _, _, _, [], _, _ => ⟨fun _ => ⟨[], rfl, trivial⟩, fun hc => by cases hc⟩
  | .mk name dataType nullable :: fields, hs, hr, term, column :: columns, rows, ⟨hcolumn, hcolumns⟩ => by
    rw [supportedFields, Bool.and_eq_true] at hs
    rw [regularFields, Bool.and_eq_true] at hr
    have happends := appendValue_appends dataType nullable hs.1 hr.1
    have hrest := appendFields_append fields hs.2 hr.2 term hcolumns
    rw [conformsFields, appendFields, canonicalFields]
    cases hvalue : term.mapGet name with
    | none => exact ⟨nofun, fun _ => ⟨_, rfl⟩⟩
    | some value =>
      rw [Option.any_some, Bool.and_eq_true, Bool.and_eq_false_iff]
      constructor
      · intro hc
        obtain ⟨column', happend, hcolumn'⟩ := happends.accepts hcolumn hc.1
        obtain ⟨columns', hrest, hcolumns'⟩ := hrest.1 hc.2
        refine ⟨column' :: columns', ?_, ?_, ?_⟩
        · exact except_bind_eq_ok.mpr ⟨value, rfl, except_bind_eq_ok.mpr ⟨column', happend,
            except_bind_eq_ok.mpr ⟨columns', hrest, rfl⟩⟩⟩
        · rw [List.map_append]
          exact hcolumn'
        · rw [List.map_append]
          exact hcolumns'
      · intro hc
        by_cases hhead : conforms dataType nullable value = true
        · obtain ⟨column', happend, -⟩ := happends.accepts hcolumn hhead
          obtain ⟨failure, hrest⟩ := hrest.2 (hc.resolve_left (by rw [hhead]; decide))
          exact ⟨failure, by simp only [decodeOr, happend, hrest, bind, Except.bind]⟩
        · obtain ⟨failure, happend⟩ := happends.refuses hcolumn (Bool.eq_false_iff.mpr hhead)
          exact ⟨failure, by simp only [decodeOr, happend, bind, Except.bind]⟩
end

end Parquex
