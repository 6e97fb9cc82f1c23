import Blueprint.Proofs.ScanReadings

/-!
Handing tokens out as soon as they are settled, and holding all of them back to the end: the tokens
are the same.
-/

namespace Blueprint.Yaml

/-- Whether a key can no longer be recognized at a place: its line has ended or it is too long. -/
def SimpleKey.stale (m : Mark) (k : SimpleKey) : Bool :=
  k.possible && (k.mark.line < m.line || k.mark.index + Scanner.keyLimit < m.index)

def SimpleKey.unlessStale (m : Mark) (k : SimpleKey) : SimpleKey :=
  if k.stale m then { k with possible := false } else k

namespace Scanner

theorem dropStaleKeys_eq (s : Scanner) :
    s.dropStaleKeys =
      if s.keys.any (fun k => k.stale s.mark && k.required) then fail .staleKey s.mark
      else .ok { s with keys := s.keys.map (·.unlessStale s.mark) } := by
  unfold dropStaleKeys
  refine if_congr Iff.rfl rfl rfl

/-- The scanner that has not handed out the tokens `done`. -/
def holding (done : List Token) (s : Scanner) : Scanner :=
  { s with queue := done ++ s.queue, taken := 0 }

section Holding

variable {text : List Char} {done : List Token} {s : Scanner}

theorem push_holding (kind : TokenKind) (m : Mark) :
    (s.holding done).push kind m = (s.push kind m).holding done := by
  simp [holding, push]

theorem insertAt_holding (htaken : s.taken = done.length) {number : Nat}
    (hn : done.length ≤ number) (kind : TokenKind) (m : Mark) :
    (s.holding done).insertAt number kind m = (s.insertAt number kind m).holding done := by
  unfold holding
  rw [append_insertAt s kind m htaken hn]
  rfl

theorem openBlock_holding (column : Nat) (kind : TokenKind) (m : Mark) :
    (s.holding done).openBlock column none kind m =
      (s.openBlock column none kind m).holding done := by
  unfold openBlock
  by_cases h : 0 < s.flow ∨ (column : Int) ≤ s.indent
  · rw [if_pos h]
    exact if_pos h
  · rw [if_neg h]
    exact (if_neg h).trans (push_holding (s := { s with indents := s.indent :: s.indents, indent := column }) kind m)

theorem openBlock_holding_at (htaken : s.taken = done.length) {number : Nat}
    (hn : done.length ≤ number) (column : Nat) (kind : TokenKind) (m : Mark) :
    (s.holding done).openBlock column (some number) kind m =
      (s.openBlock column (some number) kind m).holding done := by
  unfold openBlock
  by_cases h : 0 < s.flow ∨ (column : Int) ≤ s.indent
  · rw [if_pos h]
    exact if_pos h
  · rw [if_neg h]
    exact (if_neg h).trans
      (insertAt_holding (s := { s with indents := s.indent :: s.indents, indent := column }) htaken
        hn kind m)

theorem closeFrom_holding (column : Int) (outer : List Int) :
    closeFrom column outer (s.holding done) = (closeFrom column outer s).holding done := by
  induction outer generalizing s with
  | nil => rfl
  | cons indent r ih =>
    rw [closeFrom, closeFrom, apply_ite (holding done)]
    refine if_congr Iff.rfl ?_ rfl
    rw [← ih, push_holding]
    rfl

theorem closeBlocks_holding (column : Int) :
    (s.holding done).closeBlocks column = (s.closeBlocks column).holding done := by
  unfold closeBlocks
  rw [apply_ite (holding done)]
  exact if_congr Iff.rfl rfl (closeFrom_holding column s.indents)

/-- Passing over white space does not depend on what waits. -/
theorem toToken_with (queue : List Token) (taken : Nat) (keys : List SimpleKey) (fuel : Nat)
    (s : Scanner) : ({ s with queue, taken, keys } : Scanner).toToken .document fuel =
      { s.toToken .document fuel with queue, taken, keys } := by
  induction fuel generalizing s with
  | zero => rfl
  | succ fuel ih =>
    rw [toToken, toToken]
    simp only [apply_ite (fun u : Scanner => { u with queue, taken, keys })]
    have hadvance := ih { s with here := s.here.advance .document }
    refine if_congr Iff.rfl hadvance (if_congr Iff.rfl ?_ (if_congr Iff.rfl ?_ ?_))
    · exact ih { s with
        here := s.here.skipBreak .document, keyAllowed := s.keyAllowed || s.flow == 0 }
    · exact ih { s with here := s.here.skipComment .document }
    · exact if_congr Iff.rfl hadvance rfl

theorem toToken_frame (fuel : Nat) (s : Scanner) :
    (s.toToken .document fuel).queue = s.queue ∧ (s.toToken .document fuel).taken = s.taken ∧
      (s.toToken .document fuel).keys = s.keys := by
  have h := toToken_with s.queue s.taken s.keys fuel s
  exact ⟨(congrArg Scanner.queue h :), (congrArg Scanner.taken h :), (congrArg Scanner.keys h :)⟩

theorem toToken_holding (fuel : Nat) :
    (s.holding done).toToken .document fuel = (s.toToken .document fuel).holding done := by
  obtain ⟨hqueue, _, hkeys⟩ := toToken_frame fuel s
  refine (toToken_with (done ++ s.queue) 0 s.keys fuel s).trans ?_
  rw [holding, hqueue, ← hkeys]

/-- A step that does with all tokens held back what it does otherwise comes to the same. -/
theorem bind_holding {x y : Except ScanError Scanner} {f : Scanner → Except ScanError Scanner}
    (hx : x = holding done <$> y)
    (hf : ∀ t, y = .ok t → f (t.holding done) = holding done <$> f t) :
    (x >>= f) = holding done <$> (y >>= f) := by
  rw [hx]
  cases y with
  | error e => rfl
  | ok t => exact hf t rfl

theorem ite_holding {p : Prop} [Decidable p] {x y x' y' : Except ScanError Scanner}
    (hx : x = holding done <$> x') (hy : y = holding done <$> y') :
    (if p then x else y) = holding done <$> if p then x' else y' := by
  rw [hx, hy, apply_ite (holding done <$> ·)]

theorem bind_holding_read {α : Type} {x : Except ScanError α}
    {f g : α → Except ScanError Scanner} (h : ∀ a, f a = holding done <$> g a) :
    (x >>= f) = holding done <$> (x >>= g) := by
  cases x with
  | error e => rfl
  | ok a => exact h a

theorem dropStaleKeys_holding :
    (s.holding done).dropStaleKeys = holding done <$> s.dropStaleKeys := by
  rw [dropStaleKeys_eq, dropStaleKeys_eq]
  exact ite_holding rfl rfl

theorem dropKey_holding : (s.holding done).dropKey = holding done <$> s.dropKey := by
  unfold dropKey
  split
  next hk =>
    rw [show s.keys = [] from hk]
    rfl
  next k r hk =>
    rw [show s.keys = k :: r from hk]
    exact ite_holding rfl rfl

theorem saveKey_holding (htaken : s.taken = done.length) :
    (s.holding done).saveKey .document = holding done <$> s.saveKey .document := by
  have hnumber : (s.holding done).taken + (s.holding done).queue.length =
      s.taken + s.queue.length := by
    rw [holding, Nat.zero_add, List.length_append, htaken]
  unfold saveKey
  dsimp only
  rw [hnumber]
  exact ite_holding rfl (bind_holding dropKey_holding fun _ _ => rfl)

theorem fetchStreamEnd_holding :
    (s.holding done).fetchStreamEnd = holding done <$> s.fetchStreamEnd := by
  unfold fetchStreamEnd
  refine bind_holding ?_ fun t _ => congrArg Except.ok ?_
  · rw [← dropKey_holding, ← closeBlocks_holding]
    rfl
  · simp only [holding, push, mark, List.append_assoc]

theorem fetchDirective_holding :
    (s.holding done).fetchDirective .document = holding done <$> s.fetchDirective .document := by
  unfold fetchDirective
  refine bind_holding ?_ fun t _ => bind_holding_read fun (kind, stop) => congrArg Except.ok ?_
  · rw [← dropKey_holding, ← closeBlocks_holding]
  · simp only [holding, push, mark, List.append_assoc]

theorem fetchIndicator_holding (kind : TokenKind) :
    (s.holding done).fetchIndicator .document kind =
      holding done <$> s.fetchIndicator .document kind := by
  unfold fetchIndicator
  refine bind_holding ?_ fun t _ => congrArg Except.ok ?_
  · rw [← dropKey_holding, ← closeBlocks_holding]
  · simp only [holding, push, mark, List.append_assoc]

theorem fetchFlowStart_holding (htaken : s.taken = done.length) (kind : TokenKind) :
    (s.holding done).fetchFlowStart .document kind =
      holding done <$> s.fetchFlowStart .document kind := by
  unfold fetchFlowStart
  refine bind_holding (saveKey_holding htaken) fun t _ => ?_
  refine ite_holding rfl (congrArg Except.ok ?_)
  simp only [holding, push, mark, List.append_assoc]

theorem fetchFlowEnd_holding (kind : TokenKind) :
    (s.holding done).fetchFlowEnd .document kind =
      holding done <$> s.fetchFlowEnd .document kind := by
  unfold fetchFlowEnd
  refine bind_holding dropKey_holding fun t _ => congrArg Except.ok ?_
  exact congrArg (fun u : Scanner => { u with
    keys := if 0 < t.flow then t.keys.drop 1 else t.keys
    flow := t.flow - 1
    keyAllowed := false
    here := t.here.advance .document }) (push_holding kind t.mark)

theorem fetchFlowEntry_holding :
    (s.holding done).fetchFlowEntry .document = holding done <$> s.fetchFlowEntry .document := by
  unfold fetchFlowEntry
  refine bind_holding dropKey_holding fun t _ => congrArg Except.ok ?_
  simp only [holding, push, mark, List.append_assoc]

theorem fetchBlockEntry_holding :
    (s.holding done).fetchBlockEntry .document = holding done <$> s.fetchBlockEntry .document := by
  unfold fetchBlockEntry
  dsimp only
  refine ite_holding rfl ?_
  refine ite_holding rfl ?_
  refine bind_holding ?_ fun t _ => congrArg Except.ok ?_
  · rw [← dropKey_holding, ← openBlock_holding]
    rfl
  · simp only [holding, push, mark, List.append_assoc]

theorem fetchKey_holding :
    (s.holding done).fetchKey .document = holding done <$> s.fetchKey .document := by
  unfold fetchKey
  dsimp only
  refine ite_holding rfl ?_
  refine bind_holding ?_ fun t _ => congrArg Except.ok ?_
  · rw [← dropKey_holding, ← openBlock_holding]
    rfl
  · simp only [holding, push, mark, List.append_assoc]

theorem fetchValue_holding (htaken : s.taken = done.length)
    (hkeys : ∀ k ∈ s.openKeys, done.length ≤ k.token) :
    (s.holding done).fetchValue .document = holding done <$> s.fetchValue .document := by
  have hpush {x y : Scanner} (h : x = y.holding done) :
      (pure { x.push .value s.mark with here := x.here.advance .document } :
          Except ScanError Scanner) =
        holding done <$> pure { y.push .value s.mark with here := y.here.advance .document } := by
    rw [h]
    refine congrArg Except.ok ?_
    simp only [holding, push, List.append_assoc]
  unfold fetchValue
  split
  next hk =>
    rw [show s.keys = [] from hk]
    exact hpush rfl
  next k r hk =>
    rw [show s.keys = k :: r from hk]
    by_cases hpossible : k.possible = true
    · have hwaits : done.length ≤ k.token := by
        refine hkeys k ?_
        rw [openKeys, show s.keys = k :: r from hk, List.filter_cons_of_pos hpossible]
        exact List.mem_cons_self
      dsimp only
      rw [if_pos hpossible, if_pos hpossible, insertAt_holding htaken hwaits,
        openBlock_holding_at (s := s.insertAt k.token .key k.mark) htaken hwaits]
      exact hpush rfl
    · dsimp only
      rw [if_neg hpossible, if_neg hpossible]
      refine ite_holding (ite_holding rfl ?_) ?_
      · exact hpush (openBlock_holding s.mark.column .blockMappingStart s.mark)
      · exact hpush (congrArg
          (fun ks => holding done { s with keys := ks, keyAllowed := false }) hk)

theorem fetchAnchor_holding (htaken : s.taken = done.length) (kind : String → TokenKind) :
    (s.holding done).fetchAnchor .document kind =
      holding done <$> s.fetchAnchor .document kind := by
  unfold fetchAnchor
  refine bind_holding (saveKey_holding htaken) fun t _ =>
    bind_holding_read fun (name, stop) => congrArg Except.ok ?_
  simp only [holding, push, mark, List.append_assoc]

theorem fetchTag_holding (htaken : s.taken = done.length) :
    (s.holding done).fetchTag .document = holding done <$> s.fetchTag .document := by
  unfold fetchTag
  refine bind_holding (saveKey_holding htaken) fun t _ =>
    bind_holding_read fun (tag, stop) => congrArg Except.ok ?_
  simp only [holding, push, mark, List.append_assoc]

theorem fetchBlockScalar_holding (htaken : s.taken = done.length) (literal : Bool) :
    (s.holding done).fetchBlockScalar .document literal =
      holding done <$> s.fetchBlockScalar .document literal := by
  unfold fetchBlockScalar
  refine bind_holding (saveKey_holding htaken) fun t _ =>
    bind_holding_read fun r => congrArg Except.ok ?_
  simp only [holding, pushScalar, push, List.append_assoc]

theorem fetchQuoted_holding (htaken : s.taken = done.length) (single : Bool) :
    (s.holding done).fetchQuoted .document single =
      holding done <$> s.fetchQuoted .document single := by
  unfold fetchQuoted
  refine bind_holding (saveKey_holding htaken) fun t _ =>
    bind_holding_read fun r => congrArg Except.ok ?_
  simp only [holding, pushScalar, push, List.append_assoc]

theorem fetchPlain_holding (htaken : s.taken = done.length) :
    (s.holding done).fetchPlain .document = holding done <$> s.fetchPlain .document := by
  unfold fetchPlain
  refine bind_holding (saveKey_holding htaken) fun t _ =>
    bind_holding_read fun r => congrArg Except.ok ?_
  simp only [holding, pushScalar, push, List.append_assoc]

theorem fetchHere_holding (htaken : s.taken = done.length)
    (hkeys : ∀ k ∈ s.openKeys, done.length ≤ k.token) :
    (s.holding done).fetchHere .document = holding done <$> s.fetchHere .document := by
  unfold fetchHere
  refine ite_holding fetchStreamEnd_holding (ite_holding fetchDirective_holding
    (ite_holding (fetchIndicator_holding _) ?_))
  have hhere : (s.holding done).here = s.here := rfl
  simp only [hhere]
  split
  · exact fetchFlowStart_holding htaken _
  · exact fetchFlowStart_holding htaken _
  · exact fetchFlowEnd_holding _
  · exact fetchFlowEnd_holding _
  · exact fetchFlowEntry_holding
  · exact fetchAnchor_holding htaken _
  · exact fetchAnchor_holding htaken _
  · exact fetchTag_holding htaken
  · exact fetchQuoted_holding htaken true
  · exact fetchQuoted_holding htaken false
  · refine ite_holding fetchBlockEntry_holding (ite_holding fetchKey_holding
      (ite_holding (fetchValue_holding htaken hkeys) (ite_holding ?_ (ite_holding ?_ ?_))))
    · exact fetchBlockScalar_holding htaken true
    · exact fetchBlockScalar_holding htaken false
    · exact ite_holding (fetchPlain_holding htaken) rfl

theorem fetch_holding (h : s.InOrder text done) :
    (s.holding done).fetch .document = holding done <$> s.fetch .document := by
  unfold fetch
  dsimp only
  refine ite_holding ?_ ?_
  · exact congrArg (fun u : Scanner => Except.ok { u with
      started := true, keys := [SimpleKey.none] }) (push_holding .streamStart s.mark)
  · have hsize : (s.holding done).size = s.size := rfl
    rw [hsize, toToken_holding]
    refine bind_holding dropStaleKeys_holding fun t ht => ?_
    have hmark : (t.holding done).mark = t.mark := rfl
    rw [closeBlocks_holding, hmark]
    obtain ⟨horder, _⟩ := (h.toToken _).dropStaleKeys ht
    have horder := horder.closeBlocks t.mark.column
    exact fetchHere_holding horder.taken fun k hk => (horder.tokens.fits k hk).waiting

end Holding

theorem toToken_notAfter (fuel : Nat) (s : Scanner) :
    s.mark.NotAfter (s.toToken .document fuel).mark := by
  induction fuel generalizing s with
  | zero => exact .refl _
  | succ fuel ih =>
    have hgo {u : Scanner} (hr : s.here.Reaches .document u.here) :
        s.mark.NotAfter (u.toToken .document fuel).mark := hr.notAfter.trans (ih u)
    rw [toToken]
    split
    · exact hgo (s.here.reaches_advance _)
    · split
      · exact hgo (skipBreak_reaches _ s.here)
      · split
        · exact hgo (skipComment_reaches _ s.here)
        · split
          · exact hgo (s.here.reaches_advance _)
          · exact .refl _

end Scanner

namespace SimpleKey

variable {m m' : Mark}

theorem stale_of_notAfter (h : m.NotAfter m') {k : SimpleKey} (hk : k.stale m = true) :
    k.stale m' = true := by
  simp only [stale, Bool.and_eq_true, Bool.or_eq_true, decide_eq_true_eq] at hk ⊢
  refine ⟨hk.1, hk.2.imp (fun hl => hl.trans_le h.2) fun hi => hi.trans_le h.1⟩

theorem unlessStale_unlessStale (h : m.NotAfter m') (k : SimpleKey) :
    (k.unlessStale m).unlessStale m' = k.unlessStale m' := by
  unfold unlessStale
  split
  next hk => rw [if_neg (fun hk' => nomatch hk'), if_pos (stale_of_notAfter h hk)]
  · rfl

theorem stale_unlessStale_self (m : Mark) (k : SimpleKey) : (k.unlessStale m).stale m = false := by
  unfold unlessStale
  split
  · rfl
  next h => exact Bool.eq_false_iff.mpr h

theorem stale_unlessStale {k : SimpleKey} (hk : k.stale m = true → k.required = false) :
    ((k.unlessStale m).stale m' && (k.unlessStale m).required) = (k.stale m' && k.required) := by
  unfold unlessStale
  split
  next hstale =>
    rw [hk hstale, Bool.and_false, Bool.and_false]
  · rfl

end SimpleKey

namespace Scanner

theorem dropStaleKeys_unlessStale {s : Scanner} {m : Mark} (hm : m.NotAfter s.mark)
    (hoptional : ∀ k ∈ s.keys, k.stale m = true → k.required = false) :
    ({ s with keys := s.keys.map (·.unlessStale m) } : Scanner).dropStaleKeys =
      s.dropStaleKeys := by
  rw [dropStaleKeys_eq, dropStaleKeys_eq]
  refine if_congr ?_ rfl (congrArg Except.ok ?_)
  · rw [List.any_map, List.any_eq_true, List.any_eq_true]
    refine exists_congr fun k => and_congr_right fun hk => ?_
    exact Iff.of_eq (congrArg (· = true) (SimpleKey.stale_unlessStale (hoptional k hk)))
  · have hkeys : (s.keys.map (·.unlessStale m)).map (·.unlessStale s.mark) =
        s.keys.map (·.unlessStale s.mark) := by
      rw [List.map_map]
      exact List.map_congr_left fun k _ => SimpleKey.unlessStale_unlessStale hm k
    exact congrArg (fun keys => ({ s with keys } : Scanner)) hkeys

/-- Keys that are given up early are given up all the same before the next token is read. -/
theorem fetch_dropStaleKeys {s t : Scanner} (h : s.dropStaleKeys = .ok t) :
    t.fetch .document = s.fetch .document := by
  rw [dropStaleKeys_eq] at h
  split at h
  · cases h
  next hnone =>
    cases h
    have hoptional (k : SimpleKey) (hk : k ∈ s.keys) (hstale : k.stale s.mark = true) :
        k.required = false := by
      by_contra hrequired
      refine hnone (List.any_eq_true.mpr ⟨k, hk, ?_⟩)
      rw [hstale, Bool.of_not_eq_false hrequired]
      rfl
    obtain ⟨hqueue, htaken, hkeys⟩ := toToken_frame (s.size + 1) s
    have hmove := toToken_with s.queue s.taken (s.keys.map (·.unlessStale s.mark)) (s.size + 1) s
    have hsame : ({ s with keys := s.keys.map (·.unlessStale s.mark) } : Scanner).toToken .document
        (s.size + 1) = { s.toToken .document (s.size + 1) with
          keys := (s.toToken .document (s.size + 1)).keys.map (·.unlessStale s.mark) } := by
      dsimp only
      rw [hqueue, htaken, hkeys]
      exact hmove
    unfold fetch
    refine if_congr Iff.rfl rfl (congrArg (· >>= _) ?_)
    refine (congrArg dropStaleKeys hsame).trans ?_
    exact dropStaleKeys_unlessStale (toToken_notAfter _ s) (hkeys ▸ hoptional)

theorem dropStaleKeys_idem {s t : Scanner} (h : s.dropStaleKeys = .ok t) :
    t.dropStaleKeys = .ok t := by
  rw [dropStaleKeys_eq] at h
  split at h
  · cases h
  · cases h
    rw [dropStaleKeys_eq, if_neg, List.map_map]
    · refine congrArg (fun keys => Except.ok ({ s with keys } : Scanner)) ?_
      exact List.map_congr_left fun k _ => SimpleKey.unlessStale_unlessStale (.refl _) k
    · rw [List.any_map, List.any_eq_true]
      rintro ⟨k, _, hk⟩
      have hstale : (k.unlessStale s.mark).stale s.mark = true := (Bool.and_eq_true_iff.mp hk).1
      exact absurd hstale (Bool.eq_false_iff.mp (SimpleKey.stale_unlessStale_self s.mark k))

/-- A scanner that holds back all tokens reads the text to its end. Nothing that is left has to be a
key. -/
inductive Reads : Scanner → List Token → Prop
  | ended {s : Scanner} {ts : List Token} (hqueue : s.queue = ts)
    (hend : ∃ pre m, ts = pre ++ [⟨.streamEnd, m⟩]) (hkeys : ∃ t, s.dropStaleKeys = .ok t) :
    Reads s ts
  | step {s t : Scanner} {ts : List Token} (hopen : ∀ t ∈ s.queue, t.kind ≠ .streamEnd)
    (hf : s.fetch .document = .ok t) (h : Reads t ts) : Reads s ts

/-- Keys that are given up early make no difference. -/
theorem reads_dropStaleKeys {s t : Scanner} {ts : List Token} (h : s.dropStaleKeys = .ok t) :
    t.Reads ts ↔ s.Reads ts := by
  have hfetch := fetch_dropStaleKeys h
  have hidem := dropStaleKeys_idem h
  obtain ⟨ks, rfl, _⟩ := dropStaleKeys_ok h
  constructor
  · intro ht
    cases ht with
    | ended hqueue hend _ => exact .ended hqueue hend ⟨_, h⟩
    | step hopen hf hu => exact .step hopen (hfetch.symm.trans hf) hu
  · intro hs
    cases hs with
    | ended hqueue hend _ => exact .ended hqueue hend ⟨_, hidem⟩
    | step hopen hf hu => exact .step hopen (hfetch.trans hf) hu

/-- The scanner that holds back all tokens, and the number of tokens it can still read. -/
inductive Phase (text : List Char) : Nat → Scanner → Prop
  | start : Phase text (text.length + 2) (Scanner.ofList text)
  | live {s : Scanner} {rs : List Reading} {n left : Nat} : s.Live text rs n →
    Scan.readings text = rs ++ s.readings left → text.length - n < left → Phase text left s
  | finished {s : Scanner} : s.Finished text (Scan.readings text) → Phase text 0 s

namespace Phase

variable {text : List Char} {left : Nat} {s s' : Scanner}

/-- A token that can still be read is read, and then there are fewer. -/
theorem fetch (h : Phase text (left + 1) s) (hf : s.fetch .document = .ok s') :
    ∃ fewer ≤ left, Phase text fewer s' := by
  generalize hleft : left + 1 = total at h
  cases h with
  | start =>
    obtain ⟨s₁, hf₁, hlast, hlive⟩ := Live.ofList text
    rw [hf₁] at hf
    cases hf
    refine ⟨text.length + 1, by omega, .live hlive ?_ (by omega)⟩
    rw [Scan.readings, readings, hf₁]
    dsimp only
    rw [hlast]
    dsimp only
    rw [if_neg TokenKind.noConfusion, hlive.index]
    rfl
  | @live _ rs n _ hlive hreadings hmore =>
    subst hleft
    rw [readings, hf] at hreadings
    dsimp only at hreadings
    obtain ⟨t, hlast, ⟨hkind, hn, hmoved, hnext⟩ | ⟨hkind, hend⟩⟩ := hlive.fetch hf
    · rw [hlast] at hreadings
      dsimp only at hreadings
      rw [if_neg hkind, List.append_cons] at hreadings
      exact ⟨left, le_rfl, .live hnext hreadings (by omega)⟩
    · rw [hlast] at hreadings
      dsimp only at hreadings
      rw [if_pos hkind] at hreadings
      exact ⟨0, Nat.zero_le _, .finished (hreadings ▸ hend)⟩
  | finished _ => cases hleft

/-- Giving up stale keys changes nothing about what can still be read. -/
theorem dropStaleKeys (h : Phase text left s) (hwaiting : s.queue ≠ [])
    (hs : s.dropStaleKeys = .ok s') : Phase text left s' := by
  have hfetch := fetch_dropStaleKeys hs
  obtain ⟨ks, rfl, hsub, _⟩ := dropStaleKeys_ok hs
  cases h with
  | start => exact absurd rfl hwaiting
  | @live _ rs n _ hlive hreadings hmore =>
    refine .live (hlive.withKeys hsub) ?_ hmore
    rw [hreadings]
    cases left with
    | zero => rfl
    | succ left => rw [readings, readings, hfetch]
  | finished hend => exact .finished ⟨hend.surveyed.keys fun k hk => hsub.subset hk, hend.cleared,
      fun k hk => hend.stale k (hsub.subset hk), hend.ended, hend.few⟩

theorem unended (h : Phase text (left + 1) s) : ∀ t ∈ s.queue, t.kind ≠ .streamEnd := by
  generalize hleft : left + 1 = total at h
  cases h with
  | start => exact fun t ht => nomatch ht
  | live hlive _ _ => exact hlive.unended
  | finished _ => cases hleft

theorem finished_of_zero (h : Phase text 0 s) : s.Finished text (Scan.readings text) := by
  cases h with
  | live _ _ hmore => exact absurd hmore (Nat.not_lt_zero _)
  | finished hend => exact hend

theorem lt_size (h : Phase text left s) (hleft : left < text.length + 3) : left < s.size + 3 := by
  cases h with
  | start => exact hleft
  | live hlive _ _ => exact hlive.size ▸ hleft
  | finished _ => exact Nat.succ_pos _

theorem few (h : Phase text left s) : s.queue.length ≤ 4 * text.length + 2 := by
  cases h with
  | start => exact Nat.zero_le _
  | live hlive _ _ =>
    have := hlive.few
    omega
  | finished hend => exact hend.few

/-- Once the end of the stream has been read, it is the last token that waits. -/
theorem ended {t : Token} {q q' : List Token} (h : Phase text left s)
    (hqueue : s.queue = q ++ t :: q') (ht : t.kind = .streamEnd) :
    s.Finished text (Scan.readings text) ∧ q' = [] := by
  have hmem : t ∈ s.queue := by
    rw [hqueue]
    exact List.mem_append_right _ List.mem_cons_self
  cases h with
  | start => cases hmem
  | live hlive _ _ => exact absurd ht (hlive.unended t hmem)
  | finished hend =>
    refine ⟨hend, ?_⟩
    obtain ⟨ts, m, hts, hunended⟩ := hend.ended
    rcases List.eq_nil_or_concat q' with rfl | ⟨mid, last, rfl⟩
    · rfl
    · rw [hqueue, List.concat_eq_append, ← List.cons_append, ← List.append_assoc] at hts
      have hin : t ∈ ts := by
        rw [← (List.append_inj' hts rfl).1]
        exact List.mem_append_right _ List.mem_cons_self
      exact absurd ht (hunended t hin)

end Phase

section Running

variable {text : List Char} {done : List Token} {left fuel : Nat} {s : Scanner}

/-- The first token that waits is settled before the fuel is used up. -/
theorem settle_phase {r : Option Scanner} (h : s.InOrder text done)
    (hdone : ∀ t ∈ done, t.kind ≠ .streamEnd) (hphase : Phase text left (s.holding done))
    (hfuel : left < fuel) (hs : s.settle .document fuel = .ok r) :
    ∃ s' fewer, r = some s' ∧ fewer ≤ left ∧ Phase text fewer (s'.holding done) ∧
      s'.queue ≠ [] ∧ s'.dropStaleKeys = .ok s' ∧
      ∀ ts, (s'.holding done).Reads ts → (s.holding done).Reads ts := by
  induction fuel generalizing s left with
  | zero => exact absurd hfuel (Nat.not_lt_zero _)
  | succ fuel ih =>
    have hgo {s t : Scanner} (hs : s.InOrder text done)
        (hphase : Phase text left (s.holding done)) (hmore : left ≠ 0)
        (ht : s.fetch .document = .ok t) (hr : t.settle .document fuel = .ok r) :
        ∃ s' fewer, r = some s' ∧ fewer ≤ left ∧ Phase text fewer (s'.holding done) ∧
          s'.queue ≠ [] ∧ s'.dropStaleKeys = .ok s' ∧
          ∀ ts, (s'.holding done).Reads ts → (s.holding done).Reads ts := by
      obtain ⟨less, rfl⟩ := Nat.exists_eq_add_one_of_ne_zero hmore
      have hfetch := (fetch_holding hs).trans (congrArg (holding done <$> ·) ht)
      obtain ⟨fewer, hfewer, hnext⟩ := hphase.fetch hfetch
      obtain ⟨s', last, hr, hlast, hlive, hqueue, hkeys, hreads⟩ :=
        ih (hs.fetch ht) hnext (by omega) hr
      exact ⟨s', last, hr, by omega, hlive, hqueue, hkeys,
        fun ts hts => .step hphase.unended hfetch (hreads ts hts)⟩
    rw [settle] at hs
    split at hs
    next hempty =>
      obtain ⟨t, ht, hs⟩ := bind_eq_ok.mp hs
      refine hgo h hphase ?_ ht hs
      rintro rfl
      obtain ⟨ts, m, hts, _⟩ := hphase.finished_of_zero.ended
      have hlast : ts ++ [⟨.streamEnd, m⟩] = done := by
        rw [← hts, holding, List.isEmpty_iff.mp hempty, List.append_nil]
      exact hdone ⟨.streamEnd, m⟩ (hlast ▸ List.mem_concat_self) rfl
    next hwaiting =>
      obtain ⟨t, ht, hs⟩ := bind_eq_ok.mp hs
      obtain ⟨horder, hfresh⟩ := h.dropStaleKeys ht
      have hqueue : s.queue ≠ [] := fun hempty => hwaiting (List.isEmpty_iff.mpr hempty)
      have hheld := dropStaleKeys_holding.trans (congrArg (holding done <$> ·) ht)
      have hkept := hphase.dropStaleKeys (List.append_ne_nil_of_right_ne_nil done hqueue) hheld
      split at hs
      next hkey =>
        obtain ⟨u, hu, hs⟩ := bind_eq_ok.mp hs
        have hmore : left ≠ 0 := by
          rintro rfl
          obtain ⟨k, hk, hkey⟩ := List.any_eq_true.mp hkey
          have hpossible := (Bool.and_eq_true_iff.mp hkey).1
          have hstale := hkept.finished_of_zero.stale k (List.mem_filter.mpr ⟨hk, hpossible⟩)
          exact absurd (hfresh k hk hpossible) (Nat.not_le.mpr hstale)
        obtain ⟨s', fewer, hr, hfewer, hlive, hqueue, hkeys, hreads⟩ := hgo horder hkept hmore hu hs
        exact ⟨s', fewer, hr, hfewer, hlive, hqueue, hkeys,
          fun ts hts => (reads_dropStaleKeys hheld).mp (hreads ts hts)⟩
      · cases hs
        refine ⟨t, left, rfl, le_rfl, hkept, ?_, dropStaleKeys_idem ht,
          fun ts => (reads_dropStaleKeys hheld).mp⟩
        obtain ⟨ks, rfl, _⟩ := dropStaleKeys_ok ht
        exact hqueue

theorem next_phase {r : Option (Token × Scanner)} (h : s.InOrder text done)
    (hdone : ∀ t ∈ done, t.kind ≠ .streamEnd) (hphase : Phase text left (s.holding done))
    (hleft : left < text.length + 3) (hs : s.next? .document = .ok r) :
    ∃ t s' fewer, r = some (t, s') ∧ s'.InOrder text (done ++ [t]) ∧ fewer ≤ left ∧
      Phase text fewer (s'.holding (done ++ [t])) ∧
      (s'.holding (done ++ [t])).dropStaleKeys = .ok (s'.holding (done ++ [t])) ∧
      ∀ ts, (s'.holding (done ++ [t])).Reads ts → (s.holding done).Reads ts := by
  have hnext := hs
  unfold next? at hs
  obtain ⟨r', hsettle, hs⟩ := bind_eq_ok.mp hs
  obtain ⟨u, fewer, rfl, hfewer, hsettled, hqueue, hkeys, hreads⟩ :=
    settle_phase h hdone hphase (hphase.lt_size hleft) hsettle
  obtain ⟨t, rest, hrest⟩ := List.exists_cons_of_ne_nil hqueue
  dsimp only at hs
  rw [hrest] at hs
  cases hs
  have hheld : u.holding done =
      ({ u with queue := rest, taken := u.taken + 1 } : Scanner).holding (done ++ [t]) := by
    rw [holding, hrest, List.append_cons]
    rfl
  have hkept : (u.holding done).dropStaleKeys = .ok (u.holding done) :=
    dropStaleKeys_holding.trans (congrArg (holding done <$> ·) hkeys)
  rw [hheld] at hsettled hreads hkept
  exact ⟨t, _, fewer, rfl, h.next hnext, hfewer, hsettled, hkept, hreads⟩

end Running

end Scanner

/-- When no fault is met, the tokens that are handed out are those of a scanner that has held all of
them back to the end of the text. -/
theorem fromScanner_held {text : List Char} {done : List Token} {left fuel : Nat} {s : Scanner}
    (h : s.InOrder text done) (hdone : ∀ t ∈ done, t.kind ≠ .streamEnd)
    (hphase : Scanner.Phase text left (s.holding done)) (hleft : left < text.length + 3)
    (hfuel : 4 * text.length + 3 ≤ done.length + fuel)
    (herror : (Scan.fromScanner .document fuel s).error = none) :
    ∃ w : Scanner, w.Finished text (Scan.readings text) ∧
      w.queue = done ++ (Scan.fromScanner .document fuel s).tokens.map (·.token) ∧
      (s.holding done).Reads w.queue := by
  induction fuel generalizing done s left with
  | zero =>
    have hfew := hphase.few
    rw [Scanner.holding, List.length_append] at hfew
    omega
  | succ fuel ih =>
    rw [Scan.fromScanner] at herror ⊢
    split at herror
    · cases herror
    next hnext =>
      obtain ⟨t, s', fewer, hr, _⟩ := Scanner.next_phase h hdone hphase hleft hnext
      cases hr
    next t s' hnext =>
      obtain ⟨_, _, fewer, hr, horder, hfewer, hphase', hkeys, hreads⟩ :=
        Scanner.next_phase h hdone hphase hleft hnext
      cases hr
      split at herror
      next hend =>
        rw [if_pos hend]
        have hqueue : (s'.holding (done ++ [t])).queue = done ++ t :: s'.queue :=
          (List.append_cons ..).symm
        obtain ⟨hfinished, hrest⟩ := hphase'.ended hqueue hend
        refine ⟨_, hfinished, ?_, hreads _ (.ended rfl ?_ ⟨_, hkeys⟩)⟩
        · rw [Scanner.holding, hrest, List.append_nil]
          rfl
        · obtain ⟨ts, m, hts, _⟩ := hfinished.ended
          exact ⟨ts, m, hts⟩
      next hend =>
        rw [if_neg hend]
        have hdone' : ∀ u ∈ done ++ [t], u.kind ≠ .streamEnd := by
          intro u hu
          rcases List.mem_append.mp hu with hu | hu
          · exact hdone u hu
          · exact List.mem_singleton.mp hu ▸ hend
        obtain ⟨w, hw, hqueue, hrest⟩ := ih horder hdone' hphase' (hfewer.trans_lt hleft) (by
          rw [List.length_append, List.length_singleton]
          omega) herror
        refine ⟨w, hw, ?_, hreads _ hrest⟩
        rw [hqueue, List.append_assoc]
        rfl

theorem scan_held {text : List Char} (herror : (Scan.ofList .document text).error = none) :
    ∃ w : Scanner, w.Finished text (Scan.readings text) ∧
      w.queue = (Scan.ofList .document text).tokens.map (·.token) := by
  obtain ⟨w, hw, hqueue, _⟩ := fromScanner_held (Scanner.InOrder.ofList text)
    (fun _ ht => nomatch ht) (@Scanner.Phase.start text) (Nat.lt_succ_self _)
    (by rw [List.length_nil]; omega) herror
  exact ⟨w, hw, hqueue⟩

end Blueprint.Yaml
