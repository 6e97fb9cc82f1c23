import Blueprint.Proofs.ScannerOrder

/-!
The tokens of a document come in the order of its text, and each one stands at a place of it.
-/

namespace Blueprint.Yaml

namespace Scanner

variable {text : List Char} {done : List Token} {s s' : Scanner}

theorem InOrder.fetchHere (h : s.InOrder text done)
    (fresh : ∀ k ∈ s.keys, k.possible → s.mark.line ≤ k.mark.line)
    (hs : s.fetchHere .document = .ok s') : s'.InOrder text done := by
  unfold Scanner.fetchHere at hs
  dsimp only at hs
  by_cases hend : isEnd s.here.first = true
  · rw [if_pos hend] at hs
    exact h.fetchStreamEnd hend hs
  · rw [if_neg hend] at hs
    have hne : isEnd s.here.first = false := by simpa using hend
    split at hs
    · exact h.fetchDirective hne hs
    · split at hs
      · exact h.fetchIndicator hne hs
      · split at hs
        · exact h.fetchFlowStart hne hs
        · exact h.fetchFlowStart hne hs
        · exact h.fetchFlowEnd hne hs
        · exact h.fetchFlowEnd hne hs
        · exact h.fetchFlowEntry hne hs
        · exact h.fetchAnchor hne hs
        · exact h.fetchAnchor hne hs
        · exact h.fetchTag hne hs
        · exact h.fetchQuoted hne hs
        · exact h.fetchQuoted hne hs
        · split at hs
          · exact h.fetchBlockEntry hne hs
          · split at hs
            · exact h.fetchKey hne hs
            · split at hs
              · exact h.fetchValue hne fresh hs
              · split at hs
                · exact h.fetchBlockScalar hne hs
                · split at hs
                  · exact h.fetchBlockScalar hne hs
                  · split at hs
                    · exact h.fetchPlain hne hs
                    · cases hs

/-- Passing over white space and comments moves the scanner forward; at the end it stays. -/
theorem InOrder.toToken (h : s.InOrder text done) (fuel : Nat) :
    (s.toToken .document fuel).InOrder text done := by
  induction fuel generalizing s with
  | zero => exact h
  | succ fuel ih =>
    rw [Scanner.toToken]
    by_cases hend : isEnd s.here.first = true
    · have hz : s.here.first = '\x00' := by simpa [isEnd] using hend
      rw [hz]
      exact h
    · have hne : isEnd s.here.first = false := by simpa using hend
      have moved {c : Cursor} {t : Scanner} (hr : s.here.Reaches .document c) (hh : t.here = c)
          (hq : t.queue = s.queue) (ht : t.taken = s.taken) (hk : t.keys = s.keys) :
          t.InOrder text done :=
        (h.moved hne hr).congr hh hq ht hk
      split
      · exact ih (moved (s.here.reaches_advance _) rfl rfl rfl rfl)
      · split
        · exact ih (moved (skipBreak_reaches _ s.here) rfl rfl rfl rfl)
        · split
          · exact ih (moved (skipComment_reaches _ s.here) rfl rfl rfl rfl)
          · split
            · exact ih (moved (s.here.reaches_advance _) rfl rfl rfl rfl)
            · exact h

theorem InOrder.dropStaleKeys (h : s.InOrder text done) (hs : s.dropStaleKeys = .ok s') :
    s'.InOrder text done ∧ ∀ k ∈ s'.keys, k.possible → s'.mark.line ≤ k.mark.line := by
  obtain ⟨ks, rfl, hsub, fresh⟩ := dropStaleKeys_ok hs
  exact ⟨h.withKeys hsub, fresh⟩

theorem InOrder.fetch (h : s.InOrder text done) (hs : s.fetch .document = .ok s') :
    s'.InOrder text done := by
  unfold Scanner.fetch at hs
  dsimp only at hs
  split at hs
  · cases hs
    have h1 : (s.push .streamStart s.mark).InOrder text done := h.push (h.within.placedIn rfl)
    have hnone : ([SimpleKey.none].filter (·.possible)).Sublist s.openKeys := List.nil_sublist _
    exact (h1.withKeys hnone).congr rfl rfl rfl rfl
  · obtain ⟨t, ht, hs⟩ := bind_eq_ok.mp hs
    obtain ⟨h1, fresh⟩ := (h.toToken _).dropStaleKeys ht
    have hkeys : (t.closeBlocks t.mark.column).keys = t.keys := by
      unfold Scanner.closeBlocks
      split
      · rfl
      · exact (closeFrom_frame _ _ t).2.1
    refine (h1.closeBlocks _).fetchHere ?_ hs
    rw [hkeys, Scanner.mark, closeBlocks_here]
    exact fresh

/-- The first waiting token is settled when it is handed out: no key may be put before it. -/
theorem InOrder.settle {fuel : Nat} (h : s.InOrder text done)
    (hs : s.settle .document fuel = .ok (some s')) :
    s'.InOrder text done ∧ s'.awaitsKey = false := by
  induction fuel generalizing s with
  | zero => cases hs
  | succ fuel ih =>
    rw [Scanner.settle] at hs
    split at hs
    · obtain ⟨t, ht, hs⟩ := bind_eq_ok.mp hs
      exact ih (h.fetch ht) hs
    · obtain ⟨t, ht, hs⟩ := bind_eq_ok.mp hs
      obtain ⟨h1, _⟩ := h.dropStaleKeys ht
      split at hs
      · obtain ⟨u, hu, hs⟩ := bind_eq_ok.mp hs
        exact ih (h1.fetch hu) hs
      next hkey =>
        cases hs
        exact ⟨h1, by simpa using hkey⟩

theorem InOrder.next {t : Token} (h : s.InOrder text done)
    (hs : s.next? .document = .ok (some (t, s'))) : s'.InOrder text (done ++ [t]) := by
  unfold next? at hs
  obtain ⟨r, hr, hs⟩ := bind_eq_ok.mp hs
  split at hs
  · cases hs
  next u =>
    obtain ⟨h1, hkey⟩ := h.settle hr
    split at hs
    · cases hs
    next t' rest hq =>
      cases hs
      refine ⟨by simp [h1.taken], h1.within, ?_⟩
      have tokens := h1.tokens
      rw [hq, List.append_cons] at tokens
      refine ⟨tokens.sorted, tokens.behind, tokens.placed, ?_, tokens.nested⟩
      intro k hk
      obtain ⟨hmem, hpossible⟩ := List.mem_filter.mp hk
      have fit := tokens.fits k hk
      have hnot : k.token ≠ u.taken := by
        intro heq
        have := List.any_eq_false.mp hkey k hmem
        simp [hpossible, heq] at this
      refine { fit with waiting := ?_ }
      have := fit.waiting
      rw [h1.taken] at hnot
      simp only [List.length_append, List.length_singleton]
      omega

theorem InOrder.ofList (text : List Char) : (Scanner.ofList text).InOrder text [] := by
  refine ⟨rfl, Or.inl ⟨0, rfl⟩, ⟨.nil, ?_, ?_, ?_, .nil⟩⟩
  · intro t ht
    cases ht
  · intro t ht
    cases ht
  · intro k hk
    cases hk

end Scanner

theorem fromScanner_inOrder {text : List Char} {done : List Token} {s : Scanner} (fuel : Nat)
    (h : s.InOrder text done) :
    (done ++ (Scan.fromScanner .document fuel s).tokens.map (·.token)).Pairwise
        Token.MayPrecede ∧
      ∀ t ∈ done ++ (Scan.fromScanner .document fuel s).tokens.map (·.token),
        t.PlacedIn text := by
  have hdone : done.Pairwise Token.MayPrecede ∧ ∀ t ∈ done, t.PlacedIn text :=
    ⟨(List.pairwise_append.mp h.tokens.sorted).1,
      fun t ht => h.tokens.placed t (List.mem_append_left _ ht)⟩
  induction fuel generalizing done s with
  | zero => simpa [Scan.fromScanner] using hdone
  | succ fuel ih =>
    rw [Scan.fromScanner]
    split
    · simpa using hdone
    · simpa using hdone
    next t s' hnext =>
      have h1 := h.next hnext
      have hdone' : (done ++ [t]).Pairwise Token.MayPrecede ∧
          ∀ u ∈ done ++ [t], u.PlacedIn text :=
        ⟨(List.pairwise_append.mp h1.tokens.sorted).1,
          fun u hu => h1.tokens.placed u (List.mem_append_left _ hu)⟩
      split
      · simpa using hdone'
      · have := ih h1 hdone'
        simpa using this

/-- No token stands before the one that precedes it. -/
theorem scan_tokens_mayPrecede (text : List Char) :
    ((Scan.ofList .document text).tokens.map (·.token)).Pairwise Token.MayPrecede :=
  (fromScanner_inOrder (4 * text.length + 8) (Scanner.InOrder.ofList text)).1

theorem scan_tokens_placedIn {text : List Char} {t : Token}
    (h : t ∈ (Scan.ofList .document text).tokens.map (·.token)) : t.PlacedIn text :=
  (fromScanner_inOrder (4 * text.length + 8) (Scanner.InOrder.ofList text)).2 t h

end Blueprint.Yaml
