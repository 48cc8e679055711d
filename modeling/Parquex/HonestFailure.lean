import Parquex.PartialFailure

/-!
# When a failing call is honest

A failing call reports and cancels honestly exactly when it fails cleanly: a call
that refused before it touched a part leaves the native writers as they were, and
any other leaves a part that the answer does not list or that nobody cancels.
-/

namespace Parquex

namespace DatasetWriter

open Effect

variable {dataset : Dataset} {settings : Settings} {runtime : Runtime}

/-! ## Growth -/

/-- A part was opened or published. -/
def Grown (base n : Native) : Prop :=
  base.published.length < n.published.length ∨ base.parts.length < n.parts.length

theorem Grown.later {base n n' : Native} (h : Grown base n) (hl : Later n n') : Grown base n' := by
  have h₁ := hl.published.length_le
  have h₂ := hl.length
  unfold Grown at h ⊢
  omega

theorem Grown.of_quiet {base n n' : Native} (hq : Quiet base n) (h : Grown n n') : Grown base n' := by
  unfold Grown at h ⊢
  rw [hq.published, hq.length] at h
  exact h

theorem grown_preserves {α : Type} {base : Native} {x : Writing α} (h : ∀ b, Preserves (Later b) x) :
    Preserves (Grown base) x := fun n hg => hg.later (h n n (Later.refl n))

theorem Quiet.trans {a b c : Native} (h : Quiet a b) (h' : Quiet b c) : Quiet a c :=
  ⟨h'.published.trans h.published, h'.length.trans h.length⟩

theorem quiet_of {α : Type} {x : Writing α} (h : ∀ base, Preserves (Quiet base) x) {n n' : Native}
    {result : Except (Stop ReportedError) α} (hx : x n = (result, n')) : Quiet n n' := by
  have := h n n (Quiet.refl n)
  rwa [hx] at this

theorem later_of {α : Type} {x : Writing α} (h : ∀ base, Preserves (Later base) x) {n n' : Native}
    {result : Except (Stop ReportedError) α} (hx : x n = (result, n')) : Later n n' := by
  have := h n n (Later.refl n)
  rwa [hx] at this

/-! ## A row by what it needs -/

variable (dataset settings runtime) in
theorem ensureEntry_need (partition : Partition) (datetime : DateTime) (row : Term) (st : State) (n : Native) :
    ensureEntry dataset settings runtime partition datetime row st n =
      match need settings runtime st partition.path row with
      | .nothing => (.ok st, n)
      | .publish path => (publishEntry dataset settings runtime path st >>= fun st =>
          openEntry dataset settings runtime partition datetime st) n
      | .openPart => openEntry dataset settings runtime partition datetime st n := by
  unfold ensureEntry need
  cases hl : st.active.lookup partition.path with
  | some entry =>
    simp only
    by_cases hf : full settings runtime entry row = true
    · rw [if_pos hf, if_pos hf]
    · rw [if_neg hf, if_neg hf]
      rfl
  | none =>
    simp only
    unfold makeRoom
    by_cases hlt : st.active.entries.length < settings.maxOpenPartitions
    · rw [if_pos hlt, if_pos hlt]
      rfl
    · rw [if_neg hlt, if_neg hlt]
      cases ho : oldest st with
      | some path => rfl
      | none =>
        have hempty : st.active.entries = [] := by
          unfold oldest at ho
          rw [Option.map_eq_none_iff] at ho
          exact List.argmin_eq_none.mp ho
        rw [hempty] at hlt
        exact absurd settings.partitionsPos hlt

variable (settings runtime) in
/-- Routing one row as a sequence. -/
theorem routeRow_of_route {row : Term} (st : State) (n : Native) {partition : Partition} {datetime : DateTime}
    (h : route dataset row = .ok (partition, datetime)) :
    routeRow dataset settings runtime st row n =
      (ensureEntry dataset settings runtime partition datetime row st >>= fun st =>
        appendRow dataset settings runtime partition.path datetime row st) n := by
  unfold routeRow
  exact bind_ok (lift_eq_ok.mpr ⟨h, rfl⟩)

theorem routeRow_of_stop {row : Term} {st : State} {n : Native} {stop : Stop Error}
    (h : route dataset row = .error stop) :
    routeRow dataset settings runtime st row n = (.error (unreported stop), n) := by
  unfold routeRow
  refine bind_error ?_
  unfold lift
  rw [h]
  rfl

theorem routeRows_cons {row : Term} {rows : List Term} {st : State} {n : Native} :
    routeRows dataset settings runtime (row :: rows) st n =
      (routeRow dataset settings runtime st row >>= fun st => routeRows dataset settings runtime rows st) n := by
  unfold routeRows
  rw [List.foldlM_cons]

/-! ## Publications and openings -/

section
variable {routed : List Routed} {st st' : State} {n n' : Native} {path : String}

theorem flushEntry_reports (h : flushEntry dataset settings runtime path st n = (.ok st', n')) :
    st'.reports = st.reports := by
  obtain ⟨entry, -, hx⟩ := flushEntry_ok h
  rcases hx with ⟨-, rfl, -⟩ | ⟨batches, -, -, rfl⟩
  · rfl
  · rfl

theorem publishEntry_of_flush_error {stop : Stop ReportedError}
    (h : flushEntry dataset settings runtime path st n = (.error stop, n')) :
    publishEntry dataset settings runtime path st n = (.error stop, n') := bind_error h

/-- After its flush a publication closes the writer of the entry. -/
theorem publishEntry_of_flush {st₁ : State} {n₁ : Native} (h : Conserves dataset none routed st n)
    (hf : flushEntry dataset settings runtime path st n = (.ok st₁, n₁)) :
    ∃ entry part, n₁.parts[entry.writer]? = some part ∧ part.status = .opened ∧
      publishEntry dataset settings runtime path st n = (closePart runtime entry.writer st.reports >>= fun size =>
        pure { st₁ with active := st₁.active.erase path, reports := partOf entry size :: st.reports }) n₁ := by
  obtain ⟨done, current, h⟩ := h
  obtain ⟨h₁, entry, hlookup, -⟩ := h.flush hf
  obtain ⟨part, written, pending, hp, hs, -⟩ := (h₁.active path entry hlookup).written
  refine ⟨entry, part, hp, hs, ?_⟩
  unfold publishEntry
  rw [bind_ok hf, bind_ok (fetchEntry_eq_ok.mpr ⟨hlookup, rfl⟩), flushEntry_reports hf]

theorem publishEntry_close_refused {st₁ : State} {n₁ : Native} (h : Conserves dataset none routed st n)
    (hf : flushEntry dataset settings runtime path st n = (.ok st₁, n₁)) (hr : CloseRefused runtime n₁) :
    ∃ e n', publishEntry dataset settings runtime path st n = (.error (.error e), n') ∧
      e.published = some (report st.reports) ∧ Quiet n n' := by
  obtain ⟨entry, part, hp, hs, hpublish⟩ := publishEntry_of_flush h hf
  have hquiet := quiet_of (fun _ => quiet_flushEntry) hf
  rcases closeWriter_cases runtime hp hs with ⟨failure, -, hresult, hpub, hparts⟩ | ⟨hnot, -⟩
  · cases hc : closeWriter runtime entry.writer n₁ with
    | mk result n₂ =>
      rw [hc] at hresult hpub hparts
      simp only at hresult hpub hparts
      rw [hresult] at hc
      have hclose : closePart runtime entry.writer st.reports n₁ =
          (.error (.error (partialError { error := .fromNative failure, published := none } st.reports)), n₂) := by
        unfold closePart
        rw [hc]
      refine ⟨_, n₂, hpublish.trans (bind_error hclose), rfl, hquiet.trans ⟨hpub, ?_⟩⟩
      rw [hparts, List.length_set]
  · obtain ⟨failure, hf⟩ := hr
    exact absurd hf (hnot failure)

theorem publishEntry_close_accepted {st₁ : State} {n₁ : Native} (h : Conserves dataset none routed st n)
    (hf : flushEntry dataset settings runtime path st n = (.ok st₁, n₁)) (hr : ¬CloseRefused runtime n₁) :
    (publishEntry dataset settings runtime path st n).1 = .error .raised ∨
      Grown n (publishEntry dataset settings runtime path st n).2 ∧
        ∀ e, (publishEntry dataset settings runtime path st n).1 = .error (.error e) →
          e.published = some (report st.reports) := by
  obtain ⟨entry, part, hp, hs, hpublish⟩ := publishEntry_of_flush h hf
  have hquiet := quiet_of (fun _ => quiet_flushEntry) hf
  rw [hpublish]
  rcases closeWriter_cases runtime hp hs with ⟨failure, hanswer, -⟩ |
      ⟨-, ⟨hraised, -, -⟩ | ⟨file, hpub, -⟩⟩
  · exact absurd ⟨failure, hanswer⟩ hr
  · refine Or.inl ?_
    have hclose : closePart runtime entry.writer st.reports n₁ =
        (.error .raised, (closeWriter runtime entry.writer n₁).2) := by
      unfold closePart
      cases hc : closeWriter runtime entry.writer n₁ with
      | mk result n₂ =>
        rw [hc] at hraised
        simp only at hraised
        rw [hraised]
    rw [bind_error hclose]
  · refine Or.inr ⟨?_, ?_⟩
    · refine Grown.of_quiet hquiet (Preserves.after (fun _ => preserves_pure) ?_)
      rw [closePart_native]
      refine Or.inl ?_
      rw [hpub, List.length_append, List.length_singleton]
      omega
    · intro e he
      cases hc : closePart runtime entry.writer st.reports n₁ with
      | mk result n₂ =>
        cases result with
        | ok size =>
          rw [bind_ok hc] at he
          cases he
        | error stop =>
          rw [bind_error hc] at he
          cases he
          unfold closePart at hc
          split at hc
          · cases hc
          · cases hc
            rfl
          · cases hc

theorem publishEntry_of_refused (h : Conserves dataset none routed st n)
    (hr : PublishRefused dataset settings runtime path st n) :
    ∃ e n', publishEntry dataset settings runtime path st n = (.error (.error e), n') ∧ Quiet n n' := by
  unfold PublishRefused at hr
  cases hf : flushEntry dataset settings runtime path st n with
  | mk result n₁ =>
    rw [hf] at hr
    cases result with
    | ok st₁ =>
      obtain ⟨e, n', he, -, hq⟩ := publishEntry_close_refused h hf hr
      exact ⟨e, n', he, hq⟩
    | error stop =>
      cases stop with
      | raised => exact absurd hr id
      | error e => exact ⟨e, n₁, publishEntry_of_flush_error hf, quiet_of (fun _ => quiet_flushEntry) hf⟩

theorem publishEntry_of_not_refused (h : Conserves dataset none routed st n)
    (hr : ¬PublishRefused dataset settings runtime path st n) :
    (publishEntry dataset settings runtime path st n).1 = .error .raised ∨
      Grown n (publishEntry dataset settings runtime path st n).2 := by
  unfold PublishRefused at hr
  cases hf : flushEntry dataset settings runtime path st n with
  | mk result n₁ =>
    rw [hf] at hr
    cases result with
    | ok st₁ => exact (publishEntry_close_accepted h hf hr).imp id And.left
    | error stop =>
      cases stop with
      | raised =>
        rw [publishEntry_of_flush_error hf]
        exact Or.inl rfl
      | error e => exact absurd trivial hr

theorem openEntry_error {partition : Partition} {datetime : DateTime} {stop : Stop ReportedError}
    (h : openEntry dataset settings runtime partition datetime st n = (.error stop, n')) : Quiet n n' :=
  (Quiet.refl n).of_eq (openEntry_failed h).1 (openEntry_failed h).2

theorem openEntry_of_not_refused {partition : Partition} {datetime : DateTime}
    (hr : ¬OpenRefused dataset settings runtime partition datetime st n) :
    (openEntry dataset settings runtime partition datetime st n).1 = .error .raised ∨
      Grown n (openEntry dataset settings runtime partition datetime st n).2 := by
  cases ho : openEntry dataset settings runtime partition datetime st n with
  | mk result n₁ =>
    cases result with
    | ok st₁ =>
      obtain ⟨name, fields, -, -, -, hparts, -⟩ := openEntry_ok ho
      refine Or.inr (Or.inr ?_)
      show n.parts.length < n₁.parts.length
      rw [hparts, List.length_append, List.length_singleton]
      omega
    | error stop =>
      cases stop with
      | raised => exact Or.inl rfl
      | error e => exact absurd ⟨e, n₁, ho⟩ hr

end

/-! ## Rows -/

/-- Refused rows fail before a part is opened or published. -/
theorem routeRows_of_refused {rows : List Term} :
    ∀ {routed : List Routed} {st : State} {n n' : Native} {stop : Stop ReportedError},
      Conserves dataset none routed st n → RowsRefused dataset settings runtime rows st n →
      routeRows dataset settings runtime rows st n = (.error stop, n') →
      (∃ e, stop = .error e) ∧ Quiet n n' := by
  induction rows with
  | nil =>
    intro routed st n n' stop h hr hx
    cases hx
  | cons row rows ih =>
    intro routed st n n' stop h hr hx
    rw [routeRows_cons] at hx
    unfold RowsRefused at hr
    cases hroute : route dataset row with
    | error stop' =>
      rw [hroute] at hr
      rw [bind_error (routeRow_of_stop hroute)] at hx
      cases hx
      cases stop' with
      | error e => exact ⟨⟨_, rfl⟩, Quiet.refl n⟩
      | raised => exact absurd hr id
    | ok result =>
      obtain ⟨partition, datetime⟩ := result
      rw [hroute] at hr
      simp only at hr
      have hrow := routeRow_of_route settings runtime st n hroute
      have hensure := ensureEntry_need dataset settings runtime partition datetime row st n
      cases hneed : need settings runtime st partition.path row with
      | publish path =>
        rw [hneed] at hr hensure
        simp only at hr hensure
        obtain ⟨e, n₁, hpublish, hq⟩ := publishEntry_of_refused h hr
        rw [bind_error hpublish] at hensure
        rw [bind_error (hrow.trans (bind_error hensure))] at hx
        cases hx
        exact ⟨⟨e, rfl⟩, hq⟩
      | openPart =>
        rw [hneed] at hr hensure
        simp only at hr hensure
        obtain ⟨e, n₁, hopen⟩ := hr
        rw [hopen] at hensure
        rw [bind_error (hrow.trans (bind_error hensure))] at hx
        cases hx
        exact ⟨⟨e, rfl⟩, openEntry_error hopen⟩
      | nothing =>
        rw [hneed] at hr hensure
        simp only at hr hensure
        rw [bind_ok hensure] at hrow
        cases happend : appendRow dataset settings runtime partition.path datetime row st n with
        | mk result n₁ =>
          have hq := quiet_of (fun _ => quiet_appendRow) happend
          rw [happend] at hr hrow
          cases result with
          | ok st₁ =>
            rw [bind_ok hrow] at hx
            obtain ⟨r, -, -, h₁⟩ := h.routeRow hrow
            obtain ⟨he, hq'⟩ := ih h₁ hr hx
            exact ⟨he, hq.trans hq'⟩
          | error stop' =>
            rw [bind_error hrow] at hx
            cases hx
            cases stop with
            | error e => exact ⟨⟨e, rfl⟩, hq⟩
            | raised => exact absurd hr id

/-- Other rows fail after a part was opened or published, or crash the process. -/
theorem routeRows_of_not_refused {rows : List Term} :
    ∀ {routed : List Routed} {st : State} {n n' : Native} {stop : Stop ReportedError},
      Conserves dataset none routed st n → ¬RowsRefused dataset settings runtime rows st n →
      routeRows dataset settings runtime rows st n = (.error stop, n') → stop = .raised ∨ Grown n n' := by
  induction rows with
  | nil =>
    intro routed st n n' stop h hr hx
    exact absurd trivial hr
  | cons row rows ih =>
    intro routed st n n' stop h hr hx
    rw [routeRows_cons] at hx
    unfold RowsRefused at hr
    cases hroute : route dataset row with
    | error stop' =>
      rw [hroute] at hr
      rw [bind_error (routeRow_of_stop hroute)] at hx
      cases hx
      cases stop' with
      | error e => exact absurd trivial hr
      | raised => exact Or.inl rfl
    | ok result =>
      obtain ⟨partition, datetime⟩ := result
      rw [hroute] at hr
      simp only at hr
      have hrow := routeRow_of_route settings runtime st n hroute
      have hensure := ensureEntry_need dataset settings runtime partition datetime row st n
      -- What the ensured entry comes to, the whole call comes to.
      have hgrown : (ensureEntry dataset settings runtime partition datetime row st n).1 = .error .raised ∨
          Grown n (ensureEntry dataset settings runtime partition datetime row st n).2 → stop = .raised ∨ Grown n n' := by
        intro hg
        rcases hg with hraised | hg
        · refine Or.inl ?_
          rw [bind_error (hrow.trans (bind_error (Prod.ext hraised rfl)))] at hx
          cases hx
          rfl
        · refine Or.inr ?_
          have h₁ : Grown n (routeRow dataset settings runtime st row n).2 := by
            rw [hrow]
            exact Preserves.after (fun _ => grown_preserves fun _ => later_native.appendRow) hg
          have h₂ := Preserves.after (f := fun st => routeRows dataset settings runtime rows st)
            (fun _ => grown_preserves fun _ => later_native.routeRows) h₁
          rwa [hx] at h₂
      cases hneed : need settings runtime st partition.path row with
      | publish path =>
        rw [hneed] at hr hensure
        simp only at hr hensure
        apply hgrown
        rw [hensure]
        rcases publishEntry_of_not_refused h hr with hraised | hg
        · refine Or.inl ?_
          rw [bind_error (Prod.ext hraised rfl)]
        · exact Or.inr (Preserves.after (fun _ => grown_preserves fun _ => later_openEntry) hg)
      | openPart =>
        rw [hneed] at hr hensure
        simp only at hr hensure
        apply hgrown
        rw [hensure]
        exact openEntry_of_not_refused hr
      | nothing =>
        rw [hneed] at hr hensure
        simp only at hr hensure
        rw [bind_ok hensure] at hrow
        cases happend : appendRow dataset settings runtime partition.path datetime row st n with
        | mk result n₁ =>
          have hq := quiet_of (fun _ => quiet_appendRow) happend
          rw [happend] at hr hrow
          cases result with
          | ok st₁ =>
            rw [bind_ok hrow] at hx
            obtain ⟨r, -, -, h₁⟩ := h.routeRow hrow
            exact (ih h₁ hr hx).imp id (Grown.of_quiet hq)
          | error stop' =>
            rw [bind_error hrow] at hx
            cases hx
            cases stop with
            | error e => exact absurd trivial hr
            | raised => exact Or.inl rfl

/-! ## Closing -/

/-- Every error of a computation comes without a report. -/
def Unreported {α : Type} (x : Writing α) : Prop := ∀ n n' e, x n = (.error (.error e), n') → e.published = none

theorem unreported_pure {α : Type} {a : α} : Unreported (pure a : Writing α) := fun _ _ _ h => by cases h

theorem unreported_lift {α : Type} {x : Except (Stop Error) α} : Unreported (lift x) := by
  intro n n' e h
  cases x with
  | ok a => cases h
  | error stop =>
    cases stop with
    | raised => cases h
    | error error =>
      cases h
      rfl

theorem Unreported.bind {α β : Type} {x : Writing α} {f : α → Writing β} (hx : Unreported x)
    (hf : ∀ a, Unreported (f a)) : Unreported (x >>= f) := by
  intro n n' e h
  rcases bind_eq_error.mp h with h | ⟨a, n₁, -, h⟩
  · exact hx n n' e h
  · exact hf a n₁ n' e h

theorem unreported_foldlM {α β : Type} {f : β → α → Writing β} (hf : ∀ b a, Unreported (f b a)) :
    ∀ (items : List α) (b : β), Unreported (items.foldlM f b)
  | [], _ => unreported_pure
  | item :: items, b => by
    rw [List.foldlM_cons]
    exact (hf b item).bind fun b' => unreported_foldlM hf items b'

theorem unreported_failWith {α : Type} {error : Error} : Unreported (failWith error : Writing α) := by
  intro n n' e h
  cases h
  rfl

theorem unreported_call : Unreported (call runtime) := by
  intro n n' e h
  unfold call at h
  split at h
  · cases h
  · cases h
    rfl
  · cases h

theorem unreported_writeBatch {handle : Nat} {batch : Batch} :
    Unreported (writeBatch dataset settings runtime handle batch) := by
  intro n n' e h
  unfold writeBatch at h
  split at h
  · exact unreported_failWith _ _ _ h
  split at h
  · exact unreported_failWith _ _ _ h
  split at h
  · cases h
  split at h
  · exact unreported_failWith _ _ _ h
  split at h
  · exact unreported_failWith _ _ _ h
  split at h
  · cases h
  · rename_i hc
    cases h
    exact unreported_call _ _ _ hc

theorem unreported_flushEntry {path : String} {st : State} :
    Unreported (flushEntry dataset settings runtime path st) := by
  refine Unreported.bind ?_ fun entry => ?_
  · intro n n' e h
    unfold fetchEntry at h
    cases hl : st.active.lookup path with
    | none =>
      rw [hl] at h
      cases h
    | some entry =>
      rw [hl] at h
      cases h
  · by_cases hb : entry.buffer.isEmpty = true
    · rw [if_pos hb]
      exact unreported_pure
    · rw [if_neg hb]
      exact unreported_lift.bind fun batches =>
        (unreported_foldlM (fun _ _ => unreported_writeBatch) batches ()).bind fun _ => unreported_pure

/-- An error that reports the parts of a state before something happened to the native writers. -/
structure ReportsFrom (dataset : Dataset) (error : ReportedError) (st : State) (n n' : Native) : Prop where
  conserves : ∃ routed, Conserves dataset none routed st n
  later : Later n n'
  published : error.published = some (report st.reports)

theorem closePaths_of_refused {paths : List String} :
    ∀ {routed : List Routed} {st : State} {n n' : Native} {stop : Stop (ReportedError × State)},
      Conserves dataset none routed st n → ClosesRefused dataset settings runtime paths st n →
      closePaths dataset settings runtime paths st n = (.error stop, n') →
      ∃ e st' n₁, stop = .error (e, st') ∧ ReportsFrom dataset e st' n₁ n' ∧ Quiet n₁ n' := by
  induction paths with
  | nil =>
    intro routed st n n' stop h hr hx
    cases hx
  | cons path paths ih =>
    intro routed st n n' stop h hr hx
    unfold ClosesRefused at hr
    unfold closePaths at hx
    cases hf : flushEntry dataset settings runtime path st n with
    | mk result n₁ =>
      rw [hf] at hr
      cases result with
      | error stop' => exact absurd hr id
      | ok st₁ =>
        simp only at hr
        cases hp : publishEntry dataset settings runtime path st n with
        | mk result n₂ =>
          rw [hp] at hr hx
          cases result with
          | ok st₂ => exact ih (h.publish hp) hr hx
          | error stop' =>
            obtain ⟨e, n₃, hp', hpublished, hq⟩ := publishEntry_close_refused h hf hr
            have hl := later_of (fun _ => later_native.publishEntry) hp'
            rw [hp] at hp'
            cases hp'
            cases hx
            exact ⟨e, st, n, rfl, ⟨⟨routed, h⟩, hl, hpublished⟩, hq⟩

theorem closePaths_of_not_refused {paths : List String} :
    ∀ {routed : List Routed} {st : State} {n n' : Native} {stop : Stop (ReportedError × State)},
      Conserves dataset none routed st n → ¬ClosesRefused dataset settings runtime paths st n →
      closePaths dataset settings runtime paths st n = (.error stop, n') →
      stop = .raised ∨ ∃ e st', stop = .error (e, st') ∧
        (e.published = none ∨ ∃ n₁, ReportsFrom dataset e st' n₁ n' ∧ Grown n₁ n') := by
  induction paths with
  | nil =>
    intro routed st n n' stop h hr hx
    exact absurd trivial hr
  | cons path paths ih =>
    intro routed st n n' stop h hr hx
    unfold ClosesRefused at hr
    unfold closePaths at hx
    cases hf : flushEntry dataset settings runtime path st n with
    | mk result n₁ =>
      rw [hf] at hr
      cases result with
      | error stop' =>
        rw [publishEntry_of_flush_error hf] at hx
        cases stop' with
        | raised =>
          cases hx
          exact Or.inl rfl
        | error e =>
          cases hx
          exact Or.inr ⟨e, st, rfl, Or.inl (unreported_flushEntry _ _ _ hf)⟩
      | ok st₁ =>
        simp only at hr
        cases hp : publishEntry dataset settings runtime path st n with
        | mk result n₂ =>
          rw [hp] at hr hx
          cases result with
          | ok st₂ => exact ih (h.publish hp) hr hx
          | error stop' =>
            have hl := later_of (fun _ => later_native.publishEntry) hp
            have haccepted := publishEntry_close_accepted h hf hr
            rw [hp] at haccepted
            rcases haccepted with hraised | ⟨hg, he⟩
            · cases hraised
              cases hx
              exact Or.inl rfl
            · cases stop' with
              | raised =>
                cases hx
                exact Or.inl rfl
              | error e =>
                cases hx
                exact Or.inr ⟨e, st, rfl, Or.inr ⟨n, ⟨⟨routed, h⟩, hl, he e rfl⟩, hg⟩⟩

/-! ## Cancelling -/

theorem foldl_cancel_parts (handles : List Nat) : ∀ (n : Native) (handle : Nat),
    (handles.foldl Native.cancel n).parts[handle]? = n.parts[handle]?.map fun part =>
      if handle ∈ handles ∧ part.status ≠ .published then { part with status := .cancelled } else part := by
  induction handles with
  | nil =>
    intro n handle
    simp
  | cons h handles ih =>
    intro n handle
    rw [List.foldl_cons, ih]
    unfold Native.cancel
    cases hp : n.parts[h]? with
    | none =>
      simp only
      apply Option.map_congr
      intro part hpart
      have hne : handle ≠ h := by
        rintro rfl
        rw [hp] at hpart
        cases hpart
      simp [hne]
    | some part =>
      simp only
      by_cases hs : part.status = .published
      · rw [if_pos hs]
        apply Option.map_congr
        intro part' hpart
        by_cases he : handle = h
        · rw [he, hp] at hpart
          cases hpart
          simp [hs]
        · simp [he]
      · rw [if_neg hs]
        by_cases he : handle = h
        · subst he
          have hlt := (List.getElem?_eq_some_iff.mp hp).1
          simp only [Native.setPart]
          rw [List.getElem?_set_self hlt, hp]
          simp [hs]
        · simp only [Native.setPart]
          rw [List.getElem?_set_ne (Ne.symm he)]
          simp [he]

theorem cancelAll_parts (st : State) (n : Native) (handle : Nat) :
    (cancelAll st n).parts[handle]? = n.parts[handle]?.map fun part =>
      if handle ∈ st.active.entries.map (fun entry => entry.2.writer) ∧ part.status ≠ .published then
        { part with status := .cancelled } else part := by
  rw [← foldl_cancel_parts, List.foldl_map]
  rfl

theorem mem_writers {st : State} {path : String} {entry : Entry} (h : st.active.lookup path = some entry) :
    entry.writer ∈ st.active.entries.map fun entry => entry.2.writer :=
  List.mem_map.mpr ⟨⟨path, entry⟩, AList.mem_lookup_iff.mp h, rfl⟩

/-! ## Honesty -/

section
variable {e : ReportedError} {st : State} {n n' : Native}

theorem Conserves.lists {routed : List Routed} (h : Conserves dataset none routed st n) :
    (report st.reports).parts.map (fun part => (part.key, part.size)) =
      n.published.map fun file => (file.key, file.size) := by
  obtain ⟨done, current, h⟩ := h
  show st.reports.reverse.map _ = _
  rw [h.reports, h.published, List.map_map, List.map_map]
  apply List.map_congr_left
  intro d hd
  show (d.part.key, d.part.size) = (d.file.key, d.file.size)
  rw [(h.ok d hd).key_eq, (h.ok d hd).size_eq]

/-- Cancelling from a state settles every part when none was added since. -/
theorem ReportsFrom.honest (h : ReportsFrom dataset e st n n') (hq : Quiet n n') : Honest e (cancelAll st n') := by
  obtain ⟨⟨routed, hc⟩, hl, he⟩ := h
  refine ⟨⟨_, he, ?_⟩, ?_⟩
  · rw [cancelAll_published, hq.published]
    exact hc.lists
  · obtain ⟨done, current, hinv⟩ := hc
    intro part hp
    obtain ⟨handle, hhandle⟩ := List.getElem?_of_mem hp
    rw [cancelAll_parts] at hhandle
    obtain ⟨part', hp', rfl⟩ := Option.map_eq_some_iff.mp hhandle
    have hlt : handle < n.parts.length := by
      have := (List.getElem?_eq_some_iff.mp hp').1
      rwa [hq.length] at this
    rcases hinv.settled handle _ (List.getElem?_eq_getElem hlt) with hs | ⟨path, entry, hlookup, hw⟩
    · obtain ⟨part'', hp'', hs''⟩ := hl.kept handle _ (List.getElem?_eq_getElem hlt) hs
      rw [hp'] at hp''
      cases hp''
      rw [if_neg (by simp [hs''])]
      exact Or.inl hs''
    · have hmem := mem_writers hlookup
      rw [hw] at hmem
      by_cases hs : part'.status = .published
      · rw [if_neg (by simp [hs])]
        exact Or.inl hs
      · rw [if_pos ⟨hmem, hs⟩]
        exact Or.inr rfl

/-- A part that was opened or published since is not accounted for. -/
theorem ReportsFrom.not_honest (h : ReportsFrom dataset e st n n') (hg : Grown n n') : ¬Honest e (cancelAll st n') := by
  obtain ⟨⟨routed, hc⟩, hl, he⟩ := h
  rintro ⟨⟨report', he', hlists⟩, hsettled⟩
  rw [he] at he'
  cases he'
  rw [cancelAll_published, hc.lists] at hlists
  have hlen : n.published.length = n'.published.length := by
    have := congrArg List.length hlists
    rwa [List.length_map, List.length_map] at this
  have hlt : n.parts.length < n'.parts.length := by
    rcases hg with hg | hg
    · omega
    · exact hg
  obtain ⟨done, current, hinv⟩ := hc
  have hpart : n'.parts[n.parts.length]? = some n'.parts[n.parts.length] := List.getElem?_eq_getElem hlt
  obtain ⟨hnc, hpub⟩ := hl.fresh n.parts.length _ (Nat.le_refl _) hpart
  have hnot : n.parts.length ∉ st.active.entries.map fun entry => entry.2.writer := by
    intro hmem
    obtain ⟨⟨path, entry⟩, hentry, hw⟩ := List.mem_map.mp hmem
    have := hinv.writer_lt (AList.mem_lookup_iff.mpr hentry)
    simp only at hw
    omega
  have hfinal : (cancelAll st n').parts[n.parts.length]? = some n'.parts[n.parts.length] := by
    rw [cancelAll_parts, hpart, Option.map_some, if_neg fun hm => hnot hm.1]
  rcases hsettled _ (List.mem_of_getElem? hfinal) with hs | hs
  · have := hpub hs
    omega
  · exact hnc hs

end

/-! ## Calls of the process -/

theorem closedError_not_honest (n : Native) : ¬Honest closedError n := by
  rintro ⟨⟨report, hr, -⟩, -⟩
  cases hr

theorem handleWrite_honest {routed : List Routed} {st : State} {n : Native} {input : WriteInput} {e : ReportedError}
    (h : Conserves dataset none routed st n) (hx : (handleWrite dataset settings runtime input st n).1 = .failed e) :
    Honest e (handleWrite dataset settings runtime input st n).2.2 ↔
      FailsCleanly dataset settings runtime (.running st, n) (.write input) := by
  unfold handleWrite at hx ⊢
  unfold FailsCleanly
  simp only
  cases hrows : inputRows input with
  | error error =>
    have hw : writeRows dataset settings runtime input st n =
        (.error (.error { error, published := none }), n) := by
      unfold writeRows
      rw [hrows]
      exact bind_error rfl
    rw [hw] at hx ⊢
    cases hx
    refine iff_of_true (ReportsFrom.honest ⟨⟨routed, h⟩, Later.refl n, rfl⟩ (Quiet.refl n)) trivial
  | ok rows =>
    have hw : writeRows dataset settings runtime input st n = routeRows dataset settings runtime rows st n := by
      unfold writeRows
      rw [hrows]
      exact bind_ok rfl
    rw [hw] at hx ⊢
    cases hroute : routeRows dataset settings runtime rows st n with
    | mk result n' =>
      rw [hroute] at hx
      cases result with
      | ok st' => cases hx
      | error stop =>
        have hl := later_of (fun _ => later_native.routeRows) hroute
        by_cases hr : RowsRefused dataset settings runtime rows st n
        · obtain ⟨⟨error, rfl⟩, hq⟩ := routeRows_of_refused h hr hroute
          cases hx
          exact iff_of_true (ReportsFrom.honest ⟨⟨routed, h⟩, hl, rfl⟩ hq) hr
        · refine iff_of_false ?_ hr
          cases stop with
          | raised =>
            cases hx
            exact closedError_not_honest _
          | error error =>
            cases hx
            have hg := (routeRows_of_not_refused h hr hroute).resolve_left fun hs => by cases hs
            exact ReportsFrom.not_honest ⟨⟨routed, h⟩, hl, rfl⟩ hg

theorem handleClose_honest {routed : List Routed} {st : State} {n : Native} {e : ReportedError}
    (h : Conserves dataset none routed st n) (hx : (handleClose dataset settings runtime st n).1 = .failed e) :
    Honest e (handleClose dataset settings runtime st n).2.2 ↔
      FailsCleanly dataset settings runtime (.running st, n) .close := by
  unfold handleClose at hx ⊢
  unfold FailsCleanly
  simp only
  cases hclose : closeAll dataset settings runtime st n with
  | mk result n' =>
    rw [hclose] at hx
    cases result with
    | ok st' => cases hx
    | error stop =>
      by_cases hr : ClosesRefused dataset settings runtime (activePaths st) st n
      · obtain ⟨error, st', n₁, rfl, hreports, hq⟩ := closePaths_of_refused h hr hclose
        cases hx
        exact iff_of_true (hreports.honest hq) hr
      · refine iff_of_false ?_ hr
        rcases closePaths_of_not_refused h hr hclose with rfl | ⟨error, st', rfl, hnone | ⟨n₁, hreports, hg⟩⟩
        · cases hx
          exact closedError_not_honest _
        · cases hx
          rintro ⟨⟨report, hreport, -⟩, -⟩
          rw [hnone] at hreport
          cases hreport
        · cases hx
          exact hreports.not_honest hg

/-- While it runs, the process keeps the invariant. -/
def ServerConserves (dataset : Dataset) (s : Server × Native) : Prop :=
  match s.1 with
  | .running st => ∃ routed, Conserves dataset none routed st s.2
  | .stopped => True

theorem step_conserves (s : Server × Native) (c : Call) (h : ServerConserves dataset s) :
    ServerConserves dataset ((machine dataset settings runtime).step s c).2 := by
  obtain ⟨server, n⟩ := s
  cases server with
  | stopped => cases c <;> exact trivial
  | running st =>
    obtain ⟨routed, h⟩ := h
    cases c with
    | write input =>
      show ServerConserves dataset (handleWrite dataset settings runtime input st n).2
      unfold handleWrite
      cases hw : writeRows dataset settings runtime input st n with
      | mk result n' =>
        cases result with
        | ok st' =>
          obtain ⟨rows, more, -, -, -, h'⟩ := h.writeRows hw
          exact ⟨_, h'⟩
        | error stop => cases stop <;> exact trivial
    | close =>
      show ServerConserves dataset (handleClose dataset settings runtime st n).2
      unfold handleClose
      split <;> exact trivial
    | cancel => exact trivial
    | ownerDown => exact trivial

/-- After any run, a call that fails is answered honestly exactly when it fails cleanly. -/
theorem partial_failure_honest_iff (dataset : Dataset) (settings : Settings) (runtime : Runtime) (calls : List Call)
    (c : Call) (e : ReportedError)
    (h : (machine dataset settings runtime).replies start (calls ++ [c]) =
      (machine dataset settings runtime).replies start calls ++ [.failed e]) :
    Honest e ((machine dataset settings runtime).run start (calls ++ [c])).2 ↔
      FailsCleanly dataset settings runtime ((machine dataset settings runtime).run start calls) c := by
  have hstart : ServerConserves dataset start := Exists.intro [] (init_conserves dataset)
  have hconserves := (machine dataset settings runtime).run_inv hstart step_conserves calls
  rw [Machine.run_append]
  unfold Machine.replies at h
  rw [Machine.trace_append, List.map_append] at h
  have hreply := (List.cons.inj (List.append_cancel_left h)).1
  generalize (machine dataset settings runtime).run start calls = s at hconserves hreply ⊢
  obtain ⟨server, n⟩ := s
  change (step dataset settings runtime (server, n) c).1 = .failed e at hreply
  show Honest e (step dataset settings runtime (server, n) c).2.2 ↔ _
  cases server with
  | running st =>
    obtain ⟨routed, hst⟩ := hconserves
    cases c with
    | write input => exact handleWrite_honest hst hreply
    | close => exact handleClose_honest hst hreply
    | cancel => cases hreply
    | ownerDown => cases hreply
  | stopped =>
    cases c with
    | write input =>
      cases hreply
      exact iff_of_false (closedError_not_honest _) id
    | close =>
      cases hreply
      exact iff_of_false (closedError_not_honest _) id
    | cancel => cases hreply
    | ownerDown => cases hreply

/-! ## A clean and a dishonest failure -/

def nullRow : Term := .map [(.atom "at", .nil)]

def nullError (published : WriteReport) : ReportedError where
  error := invalid "partition timestamp cannot be null"
  published := some published

/-- A row without a timestamp in a call of its own. -/
theorem partial_failure_honest_iff_null_row :
    Honest (nullError (report [])) ((machine (clockDataset .second) smallSettings smoothRuntime).run start
        ([.write (clockInput [0])] ++ [.write (.term nullRow)])).2 ↔
      FailsCleanly (clockDataset .second) smallSettings smoothRuntime
        ((machine (clockDataset .second) smallSettings smoothRuntime).run start [.write (clockInput [0])])
        (.write (.term nullRow)) :=
  partial_failure_honest_iff (clockDataset .second) smallSettings smoothRuntime [.write (clockInput [0])]
    (.write (.term nullRow)) (nullError (report [])) (by decide +kernel)

/-- The same row after rows of two hours: one part is published and one left open, and the error lists none. -/
theorem failed_write_hides_parts :
    (machine (clockDataset .second) smallSettings smoothRuntime).replies start
        [.write (.term (.list [clockRow 0, clockRow 3600, nullRow]))] = [.failed (nullError (report []))] ∧
      ((machine (clockDataset .second) smallSettings smoothRuntime).run start
        [.write (.term (.list [clockRow 0, clockRow 3600, nullRow]))]).2.published.map PublishedPart.key =
          ["events/year=1970/month=1/day=1/hour=0/part-0.parquet"] ∧
      ((machine (clockDataset .second) smallSettings smoothRuntime).run start
        [.write (.term (.list [clockRow 0, clockRow 3600, nullRow]))]).2.parts.map NativePart.status =
          [.published, .opened] ∧
      ¬Honest (nullError (report [])) ((machine (clockDataset .second) smallSettings smoothRuntime).run start
        [.write (.term (.list [clockRow 0, clockRow 3600, nullRow]))]).2 := by
  have hstatus : ((machine (clockDataset .second) smallSettings smoothRuntime).run start
      [.write (.term (.list [clockRow 0, clockRow 3600, nullRow]))]).2.parts.map NativePart.status =
        [.published, .opened] := by decide +kernel
  refine ⟨by decide +kernel, by decide +kernel, hstatus, fun h => ?_⟩
  have hopened : PartStatus.opened ∈ ((machine (clockDataset .second) smallSettings smoothRuntime).run start
      [.write (.term (.list [clockRow 0, clockRow 3600, nullRow]))]).2.parts.map NativePart.status := by
    rw [hstatus]
    decide
  obtain ⟨part, hpart, hs⟩ := List.mem_map.mp hopened
  rcases h.settled part hpart with h' | h'
  · rw [hs] at h'
    cases h'
  · rw [hs] at h'
    cases h'

end DatasetWriter

end Parquex
