import Blueprint.Proofs.HeldScan

/-!
A text is scanned without a fault exactly when a scanner that holds back all tokens reads it to its
end, and the tokens are the same.
-/

namespace Blueprint.Yaml

namespace Scanner

variable {text : List Char} {done ts ts' : List Token} {left fuel : Nat} {s t : Scanner}

/-- Where the scanner stops does not depend on the way in which it got there. -/
theorem Reads.unique (h : s.Reads ts) (h' : s.Reads ts') : ts' = ts := by
  have hends {s : Scanner} {ts : List Token} (hqueue : s.queue = ts)
      (hend : ∃ pre m, ts = pre ++ [⟨.streamEnd, m⟩])
      (hopen : ∀ t ∈ s.queue, t.kind ≠ .streamEnd) : False := by
    obtain ⟨pre, m, rfl⟩ := hend
    exact hopen ⟨.streamEnd, m⟩ (hqueue ▸ List.mem_concat_self) rfl
  induction h with
  | ended hqueue hend _ =>
    cases h' with
    | ended hqueue' _ _ => exact hqueue'.symm.trans hqueue
    | step hopen _ _ => exact (hends hqueue hend hopen).elim
  | step hopen hf _ ih =>
    cases h' with
    | ended hqueue' hend' _ => exact (hends hqueue' hend' hopen).elim
    | step _ hf' h' =>
      obtain rfl := Except.ok.inj (hf.symm.trans hf')
      exact ih h'

/-- A key that may not be given up would stop the scanner before the next token. -/
theorem dropStaleKeys_of_fetch (hstarted : s.started = true) (hf : s.fetch .document = .ok t) :
    ∃ u, s.dropStaleKeys = .ok u := by
  unfold fetch at hf
  rw [hstarted] at hf
  obtain ⟨u, hu, _⟩ := bind_eq_ok.mp hf
  rw [dropStaleKeys_eq] at hu
  rw [dropStaleKeys_eq]
  split at hu
  · cases hu
  next hnone =>
    refine ⟨_, if_neg fun hsome => hnone ?_⟩
    obtain ⟨k, hk, hkey⟩ := List.any_eq_true.mp hsome
    obtain ⟨hstale, hrequired⟩ := Bool.and_eq_true_iff.mp hkey
    refine List.any_eq_true.mpr ⟨k, (toToken_frame _ s).2.2 ▸ hk, ?_⟩
    rw [SimpleKey.stale_of_notAfter (toToken_notAfter _ s) hstale, hrequired]
    rfl

namespace Phase

theorem ne_zero (h : Phase text left s) (hopen : ∀ t ∈ s.queue, t.kind ≠ .streamEnd) :
    left ≠ 0 := by
  rintro rfl
  obtain ⟨pre, m, hpre, _⟩ := h.finished_of_zero.ended
  exact hopen ⟨.streamEnd, m⟩ (hpre ▸ List.mem_concat_self) rfl

theorem dropStaleKeys_of_reads (h : Phase text left s) (hqueue : s.queue ≠ [])
    (hreads : s.Reads ts) : ∃ u, s.dropStaleKeys = .ok u := by
  cases hreads with
  | ended _ _ hkeys => exact hkeys
  | step hopen hf _ =>
    cases h with
    | start => exact absurd rfl hqueue
    | live hlive _ _ => exact dropStaleKeys_of_fetch hlive.started hf
    | finished hend =>
      obtain ⟨pre, m, hpre, _⟩ := hend.ended
      exact absurd rfl (hopen ⟨.streamEnd, m⟩ (hpre ▸ List.mem_concat_self))

end Phase

theorem eq_ok_of_holding {x : Except ScanError Scanner} {u : Scanner}
    (h : holding done <$> x = .ok u) : ∃ t, x = .ok t ∧ u = t.holding done := by
  cases x with
  | error e => cases h
  | ok t =>
    cases h
    exact ⟨t, rfl, rfl⟩

/-- A scanner that hands tokens out as soon as they are settled goes on as long as the one that holds
them back. -/
theorem settle_of_reads (h : s.InOrder text done) (hdone : ∀ t ∈ done, t.kind ≠ .streamEnd)
    (hphase : Phase text left (s.holding done)) (hreads : (s.holding done).Reads ts) :
    ∃ r, s.settle .document fuel = .ok r ∧ ∀ s', r = some s' → (s'.holding done).Reads ts := by
  induction fuel generalizing s left with
  | zero => exact ⟨none, rfl, fun _ hr => nomatch hr⟩
  | succ fuel ih =>
    have hgo {s : Scanner} (h : s.InOrder text done) (hphase : Phase text left (s.holding done))
        (hreads : (s.holding done).Reads ts)
        (hopen : ∀ t ∈ (s.holding done).queue, t.kind ≠ .streamEnd) :
        ∃ t, s.fetch .document = .ok t ∧ ∃ r, t.settle .document fuel = .ok r ∧
          ∀ s', r = some s' → (s'.holding done).Reads ts := by
      obtain ⟨less, rfl⟩ := Nat.exists_eq_add_one_of_ne_zero (hphase.ne_zero hopen)
      cases hreads with
      | ended hqueue hend _ =>
        obtain ⟨pre, m, rfl⟩ := hend
        exact absurd rfl (hopen ⟨.streamEnd, m⟩ (hqueue ▸ List.mem_concat_self))
      | step _ hf hreads =>
        obtain ⟨fewer, _, hnext⟩ := hphase.fetch hf
        rw [fetch_holding h] at hf
        obtain ⟨t, ht, rfl⟩ := eq_ok_of_holding hf
        exact ⟨t, ht, ih (h.fetch ht) hnext hreads⟩
    rw [settle]
    split
    next hempty =>
      have hopen : ∀ t ∈ (s.holding done).queue, t.kind ≠ .streamEnd := by
        rw [holding, List.isEmpty_iff.mp hempty, List.append_nil]
        exact hdone
      obtain ⟨t, ht, hrest⟩ := hgo h hphase hreads hopen
      rw [ht]
      exact hrest
    next hwaiting =>
      have hqueue : (s.holding done).queue ≠ [] :=
        List.append_ne_nil_of_right_ne_nil done fun hempty =>
          hwaiting (List.isEmpty_iff.mpr hempty)
      obtain ⟨u, hheld⟩ := hphase.dropStaleKeys_of_reads hqueue hreads
      have hkept := hphase.dropStaleKeys hqueue hheld
      have hreads' := (reads_dropStaleKeys hheld).mpr hreads
      rw [dropStaleKeys_holding] at hheld
      obtain ⟨t, ht, rfl⟩ := eq_ok_of_holding hheld
      obtain ⟨horder, hfresh⟩ := h.dropStaleKeys ht
      rw [ht]
      show ∃ r, (if t.awaitsKey then _ else _) = Except.ok r ∧ _
      split
      next hkey =>
        have hopen : ∀ t' ∈ (t.holding done).queue, t'.kind ≠ .streamEnd := by
          intro t' ht' hend
          obtain ⟨pre, post, hparts⟩ := List.append_of_mem ht'
          obtain ⟨k, hk, hkey⟩ := List.any_eq_true.mp hkey
          have hpossible := (Bool.and_eq_true_iff.mp hkey).1
          have hstale := (hkept.ended hparts hend).1.stale k (List.mem_filter.mpr ⟨hk, hpossible⟩)
          exact absurd (hfresh k hk hpossible) (Nat.not_le.mpr hstale)
        obtain ⟨v, hv, hrest⟩ := hgo horder hkept hreads' hopen
        rw [hv]
        exact hrest
      · exact ⟨some t, rfl, fun _ hr => Option.some.inj hr ▸ hreads'⟩

theorem next_of_reads (h : s.InOrder text done) (hdone : ∀ t ∈ done, t.kind ≠ .streamEnd)
    (hphase : Phase text left (s.holding done)) (hleft : left < text.length + 3)
    (hreads : (s.holding done).Reads ts) :
    ∃ t s', s.next? .document = .ok (some (t, s')) ∧ (s'.holding (done ++ [t])).Reads ts := by
  have hread : ∃ r, s.settle .document (s.size + 3) = .ok r ∧
      ∀ s', r = some s' → (s'.holding done).Reads ts := settle_of_reads h hdone hphase hreads
  obtain ⟨r, hsettle, hrest⟩ := hread
  obtain ⟨u, _, rfl, _, _, hqueue, _⟩ := settle_phase h hdone hphase (hphase.lt_size hleft) hsettle
  obtain ⟨t, rest, hparts⟩ := List.exists_cons_of_ne_nil hqueue
  refine ⟨t, { u with queue := rest, taken := u.taken + 1 }, ?_, ?_⟩
  · unfold next?
    rw [hsettle]
    cases u
    cases hparts
    rfl
  · have hheld := hrest u rfl
    rwa [holding, hparts, List.append_cons] at hheld

end Scanner

theorem fromScanner_of_reads {text : List Char} {done ts : List Token} {left fuel : Nat}
    {s : Scanner} (h : s.InOrder text done) (hdone : ∀ t ∈ done, t.kind ≠ .streamEnd)
    (hphase : Scanner.Phase text left (s.holding done)) (hleft : left < text.length + 3)
    (hreads : (s.holding done).Reads ts) : (Scan.fromScanner .document fuel s).error = none := by
  induction fuel generalizing done s left with
  | zero => rfl
  | succ fuel ih =>
    obtain ⟨t, s', hnext, hrest⟩ := Scanner.next_of_reads h hdone hphase hleft hreads
    obtain ⟨_, _, fewer, hr, horder, hfewer, hphase', _⟩ :=
      Scanner.next_phase h hdone hphase hleft hnext
    cases hr
    rw [Scan.fromScanner, hnext]
    dsimp only
    split
    · rfl
    next hend =>
      refine ih horder ?_ hphase' (hfewer.trans_lt hleft) hrest
      intro u hu
      rcases List.mem_append.mp hu with hu | hu
      · exact hdone u hu
      · exact List.mem_singleton.mp hu ▸ hend

/-- A text is scanned without a fault if the scanner that holds back all tokens comes to its end. -/
theorem scan_iff_reads {text : List Char} {ts : List Token} :
    (Scanner.ofList text).Reads ts ↔ (Scan.ofList .document text).error = none ∧
      (Scan.ofList .document text).tokens.map (·.token) = ts := by
  have hheld (herror : (Scan.ofList .document text).error = none) :
      (Scanner.ofList text).Reads ((Scan.ofList .document text).tokens.map (·.token)) := by
    obtain ⟨w, _, hqueue, hreads⟩ := fromScanner_held (Scanner.InOrder.ofList text)
      (fun _ ht => nomatch ht) (@Scanner.Phase.start text) (Nat.lt_succ_self _)
      (by rw [List.length_nil]; omega) herror
    rw [hqueue] at hreads
    exact hreads
  constructor
  · intro hreads
    have herror : (Scan.ofList .document text).error = none :=
      fromScanner_of_reads (Scanner.InOrder.ofList text) (fun _ ht => nomatch ht)
        (@Scanner.Phase.start text) (Nat.lt_succ_self _) hreads
    exact ⟨herror, hreads.unique (hheld herror)⟩
  · rintro ⟨herror, rfl⟩
    exact hheld herror

end Blueprint.Yaml
