import Blueprint.Proofs.PassedComments

/-!
The readings of a document: its tokens, read one after the other, with the text of each. A scanner
that holds back all that it reads has the tokens of its readings waiting.
-/

namespace Blueprint.Yaml

/-- What a scanner reads from here to the end of the text, token after token. -/
def Scanner.readings : Nat → Scanner → List Reading
  | 0, _ => []
  | fuel + 1, s =>
    match s.fetch .document with
    | .error _ => []
    | .ok s' =>
      match s'.queue.getLast? with
      | none => []
      | some t =>
        ⟨t, s'.mark.index⟩ :: if t.kind = .streamEnd then [] else Scanner.readings fuel s'

/-- The tokens of a document that are read from a text of their own, with where that text stops. -/
def Scan.readings (text : List Char) : List Reading :=
  (Scanner.ofList text).readings (text.length + 2)

/-- What is added besides the token itself does not end the stream. -/
theorem Adds.unended {ts ts' : List Token} {ks ks' : List SimpleKey} {m : Mark} {t u : Token}
    (h : Adds ts ks m t ts' ks') (hts : ∀ u ∈ ts, u.kind ≠ .streamEnd)
    (ht : t.kind ≠ .streamEnd) (hu : u ∈ ts') : u.kind ≠ .streamEnd := by
  rcases h.mem hu with hu | rfl | ⟨hkind, _⟩
  · exact hts u hu
  · exact ht
  · rcases hkind with hkind | hkind | hkind <;> rw [hkind] <;> exact TokenKind.noConfusion

namespace Scanner

/-- A scanner that has handed out nothing and has read up to `n`. -/
structure Live (text : List Char) (rs : List Reading) (n : Nat) (s : Scanner) : Prop where
  inOrder : s.InOrder text []
  started : s.started = true
  size : s.size = text.length
  here : s.here = placeAt text n
  surveyed : Surveyed text rs s.queue s.openKeys n
  cleared : Cleared text rs s.queue s.openKeys n
  before : ∀ k ∈ s.openKeys, k.mark.index < n
  unended : ∀ t ∈ s.queue, t.kind ≠ .streamEnd
  few : s.queue.length + s.indents.length ≤ 4 * min n text.length + 1

/-- A scanner that has read the whole text. No key may be recognized any more. -/
structure Finished (text : List Char) (rs : List Reading) (s : Scanner) : Prop where
  surveyed : Surveyed text rs s.queue s.openKeys s.mark.index
  cleared : ∀ i, Aside text rs i → ∀ t ∈ s.queue, t.kind = .blockEnd ∨ t.mark.Clears text i
  stale : ∀ k ∈ s.openKeys, k.mark.line < s.mark.line
  ended : ∃ ts m, s.queue = ts ++ [⟨.streamEnd, m⟩] ∧ ∀ t ∈ ts, t.kind ≠ .streamEnd
  few : s.queue.length ≤ 4 * text.length + 2

variable {text : List Char} {rs : List Reading} {n : Nat} {s s' : Scanner}

namespace Live

theorem counted (h : s.Live text rs n) : ∀ k ∈ s.openKeys, k.token ≤ s.queue.length :=
  fun k hk => (h.inOrder.tokens.fits k hk).counted

theorem taken (h : s.Live text rs n) : s.taken = 0 :=
  h.inOrder.taken

theorem index (h : s.Live text rs n) : s.mark.index = n := by
  rw [mark, h.here, placeAt_index]

theorem keyLine (h : s.Live text rs n) {k : SimpleKey} (hk : k ∈ s.openKeys) :
    k.mark.line = lineAt text k.mark.index := by
  rcases (h.inOrder.tokens.fits k hk).placed with ⟨i, hi⟩ | ⟨hbound, _⟩
  · show k.mark.line = _
    dsimp only at hi
    rw [hi]
    exact placeAt_line.trans (congrArg _ placeAt_index.symm)
  · cases hbound

theorem withKeys {ks : List SimpleKey} (h : s.Live text rs n)
    (hks : (ks.filter (·.possible)).Sublist s.openKeys) :
    ({ s with keys := ks } : Scanner).Live text rs n :=
  { h with
    inOrder := h.inOrder.withKeys hks
    surveyed := h.surveyed.keys fun _ hk => hks.subset hk
    cleared := h.cleared.withKeys fun _ hk => hks.subset hk
    before := fun k hk => h.before k (hks.subset hk) }

/-- The blocks that end at `a`. -/
theorem close {ends : List Token} {a : Nat} (h : s.Live text rs n) (ha : n ≤ a)
    (hends : ∀ u ∈ ends, u.kind = .blockEnd ∧ u.mark.index = a) (hhash : charAt text a ≠ '#') :
    Surveyed text rs (s.queue ++ ends) s.openKeys a := by
  rw [← List.append_nil rs]
  refine h.surveyed.append h.counted ?_ ?_ ?_ ?_ (fun _ hr => nomatch hr) (fun _ => Or.inl) ha
  · intro u hu
    obtain ⟨kind, mark⟩ := u
    obtain ⟨rfl, rfl⟩ := hends _ hu
    exact ⟨ha, .of_character rfl hhash, fun hstyle => nomatch hstyle⟩
  · refine (List.pairwise_of_forall_mem_list fun u hu _ _ hstart => ?_).isChain
    rw [(hends u hu).1] at hstart
    cases hstart
  · intro u hu
    rw [(hends u (List.mem_of_mem_getLast? hu)).1]
    exact TokenKind.noConfusion
  · refine List.pairwise_of_forall_mem_list fun u hu _ _ hkind => ?_
    rw [(hends u hu).1] at hkind
    cases hkind

theorem steps {t : Token} {a b : Nat} (h : s.Live text rs n) (hskips : Skips text n a)
    (hend : isEnd (charAt text a) = false)
    (hsteps : s.Steps text a t b s') (hf : s.fetch .document = .ok s') :
    s'.Live text (rs ++ [⟨t, b⟩]) b := by
  obtain ⟨ends, hends, hadds⟩ := hsteps.adds
  have hkind (u) (hu : u ∈ ends) : u.kind = .blockEnd ∧ u.mark.index = a := by
    rw [hends u hu]
    exact ⟨rfl, placeAt_index⟩
  have hlt := lt_length_of_charAt hend
  have hab := hsteps.spells.lt
  have ha := hskips.le
  refine ⟨h.inOrder.fetch hf, hsteps.started.trans h.started, hsteps.size.trans h.size,
    hsteps.here, ?_, ?_, ?_, ?_, ?_⟩
  · refine (h.close ha hkind hskips.hash).adds ?_ ?_ ?_ hskips.hash hsteps.spells hadds
    · intro k hk
      rw [List.length_append]
      exact (h.counted k hk).trans (Nat.le_add_right _ _)
    · exact fun k hk => (Nat.le_of_lt (h.before k hk)).trans ha
    · exact h.inOrder.tokens.nested.imp And.left
  · exact h.cleared.step hskips hend hsteps.spells (fun u hu => (hkind u hu).1) hadds
  · intro k hk
    rcases hadds.key hk with hk | hmark
    · exact (h.before k hk).trans_le (ha.trans (Nat.le_of_lt hab))
    · rw [hmark, placeAt_index]
      exact hab
  · refine fun u hu => hadds.unended ?_ hsteps.spells.kind.2 hu
    intro v hv
    rcases List.mem_append.mp hv with hv | hv
    · exact h.unended v hv
    · rw [hends v hv]
      exact TokenKind.noConfusion
  · have hfew := h.few
    have hstep := hsteps.few
    rw [Nat.min_eq_left (by omega)] at hfew
    have : a + 1 ≤ min b text.length := Nat.le_min.mpr ⟨hab, hlt⟩
    omega

theorem ends {a : Nat} (h : s.Live text rs n) (ha : n ≤ a) (hend : isEnd (charAt text a) = true)
    (hends : s.Ends text a s') :
    ∃ m, s'.queue.getLast? = some ⟨.streamEnd, m⟩ ∧
      s'.Finished text (rs ++ [⟨⟨.streamEnd, m⟩, s'.mark.index⟩]) := by
  obtain ⟨ends, hqueue, hclosed⟩ := hends.queue
  have hkind (u) (hu : u ∈ ends) : u.kind = .blockEnd ∧ u.mark.index = a :=
    ⟨(hclosed u hu).1, (hclosed u hu).2.1⟩
  have hm : s'.mark.index = a := hends.index
  have hhash : charAt text a ≠ '#' := by
    intro heq
    rw [heq] at hend
    cases hend
  refine ⟨s'.mark, by rw [hqueue, List.getLast?_concat], ?_, ?_, ?_,
    ⟨s.queue ++ ends, s'.mark, hqueue, ?_⟩, ?_⟩
  · rw [hqueue, hends.index]
    refine (h.close ha hkind hhash).append ?_ ?_ (List.isChain_singleton _) ?_
      (List.pairwise_singleton _ _) ?_ (fun k hk => Or.inl (hends.keys.subset hk)) le_rfl
    · intro k hk
      rw [List.length_append]
      exact (h.counted k hk).trans (Nat.le_add_right _ _)
    · intro u hu
      rw [List.mem_singleton.mp hu]
      exact ⟨Nat.le_of_eq hm.symm, .of_character rfl (hm ▸ hhash), fun hstyle => nomatch hstyle⟩
    · intro u hu
      cases hu
      exact TokenKind.noConfusion
    · intro r hr
      rw [List.mem_singleton.mp hr]
      exact ⟨⟨[], rfl⟩, le_rfl, fun hstyle => nomatch hstyle⟩
  · intro i hi t ht
    rw [hqueue] at ht
    rcases List.mem_append.mp ht with ht | ht
    · rcases List.mem_append.mp ht with ht | ht
      · exact h.cleared.tokens i hi.of_append t ht
      · exact Or.inl (hkind t ht).1
    · rw [List.mem_singleton.mp ht]
      exact Or.inr (end_clears hm hends.line)
  · intro k hk
    have hk := hends.keys.subset hk
    have hbefore := (h.before k hk).trans_le ha
    rw [h.keyLine hk]
    exact (end_clears hm hends.line).resolve_left (Nat.not_le.mpr (hm ▸ hbefore))
  · intro u hu
    rcases List.mem_append.mp hu with hu | hu
    · exact h.unended u hu
    · rw [(hkind u hu).1]
      exact TokenKind.noConfusion
  · have hfew := h.few
    have hstep := hends.few
    have := Nat.min_le_right n text.length
    omega

/-- One more token is read: either it has a text of its own, or the stream ends. -/
theorem fetch (h : s.Live text rs n) (hf : s.fetch .document = .ok s') :
    ∃ t, s'.queue.getLast? = some t ∧
      ((t.kind ≠ .streamEnd ∧ n < text.length ∧ n < s'.mark.index ∧
          s'.Live text (rs ++ [⟨t, s'.mark.index⟩]) s'.mark.index) ∨
        (t.kind = .streamEnd ∧ s'.Finished text (rs ++ [⟨t, s'.mark.index⟩]))) := by
  obtain ⟨a, hskips, ⟨hend, t, b, hsteps⟩ | ⟨hend, hends⟩⟩ :=
    fetch_steps h.started h.here h.size h.taken h.counted hf
  · obtain ⟨ends, _, hadds⟩ := hsteps.adds
    have hlive := h.steps hskips hend hsteps hf
    have hlt := lt_length_of_charAt hend
    refine ⟨t, hadds.last, Or.inl ⟨hsteps.spells.kind.2, hskips.le.trans_lt hlt, ?_, ?_⟩⟩
    · rw [hlive.index]
      exact hskips.le.trans_lt hsteps.spells.lt
    · rwa [hlive.index]
  · obtain ⟨m, hlast, hfinished⟩ := h.ends hskips.le hend hends
    exact ⟨_, hlast, Or.inr ⟨rfl, hfinished⟩⟩

/-- The first token is the start of the stream. -/
theorem ofList (text : List Char) :
    ∃ s, (Scanner.ofList text).fetch .document = .ok s ∧
      s.queue.getLast? = some ⟨.streamStart, ⟨0, 1, 0⟩⟩ ∧
      s.Live text [⟨⟨.streamStart, ⟨0, 1, 0⟩⟩, 0⟩] 0 := by
  have hf : (Scanner.ofList text).fetch .document =
      .ok { Scanner.ofList text with
        queue := [⟨.streamStart, ⟨0, 1, 0⟩⟩], started := true, keys := [SimpleKey.none] } := rfl
  refine ⟨_, hf, rfl, (InOrder.ofList text).fetch hf, rfl, rfl, rfl, ?_, ?_,
    (fun _ hk => nomatch hk), ?_, Nat.le_add_left _ _⟩
  · refine ⟨?_, ?_, ?_, ?_, List.isChain_singleton _, ?_, (fun _ hk => nomatch hk),
      (fun _ hk => nomatch hk), List.pairwise_singleton _ _⟩
    · intro t ht hstyle
      rw [List.mem_singleton.mp ht] at hstyle
      cases hstyle
    · intro r hr hstyle
      rw [List.mem_singleton.mp hr] at hstyle
      cases hstyle
    · intro r hr
      rw [List.mem_singleton.mp hr]
      exact ⟨[], [], rfl, (fun _ hu => nomatch hu), le_rfl, (fun _ hk => nomatch hk)⟩
    · intro t ht hstart
      exact absurd (congrArg Token.kind (List.mem_singleton.mp ht)) hstart
    · intro t ht
      cases ht
      exact TokenKind.noConfusion
  · refine ⟨?_, (fun _ _ _ hk => nomatch hk), fun i _ => Or.inl (Nat.zero_le i)⟩
    intro i _ t ht
    rw [List.mem_singleton.mp ht]
    exact Or.inr (Or.inl (Nat.zero_le i))
  · intro t ht
    rw [List.mem_singleton.mp ht]
    exact TokenKind.noConfusion

end Live

end Scanner

end Blueprint.Yaml
