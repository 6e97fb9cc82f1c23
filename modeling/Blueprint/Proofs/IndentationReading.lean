import Blueprint.Proofs.HeadedBlocks
import Blueprint.Proofs.IndentationFrames
import Blueprint.Proofs.IndentationStack

/-!
The indentation check over the tokens of a node: each of them is one that it expects, and behind the
last one its stack is the one that goes with the place of the parser.
-/

namespace Blueprint

open Yaml (TokenKind Expect Begins)

namespace Indentation

/-- The check goes over tokens of one stream, before `after`, and expects each of them. -/
def Accepts (after : List Lexeme) (s : Indentation) (prev : Lexeme)
    (path : List (Container × Mark)) : List Lexeme → Indentation → Prop
  | [], s' => s' = s
  | l :: r, s' => l.kind ≠ .streamStart ∧
    ∃ v s₁, s.check ⟨l, some prev, (r ++ after).head?, (r ++ after)[1]?, path⟩ = (v, s₁) ∧
      v ≠ .unexpected ∧ Accepts after s₁ l (Element.pathAfter path l) r s'

/-- Over tokens of the kinds `ks`, with `r` behind them, the check comes from some frames to
others. -/
def Reads (frames : List Frame) (ks r : List TokenKind) (Q : List Frame → Prop) : Prop :=
  ∀ ls after, ls.map (·.kind) = ks → after.map (·.kind) = r → Lexeme.Streams (ls ++ after) →
    ∀ (s : Indentation) (prev : Lexeme) (path : List (Container × Mark)), s.frames = frames →
      ∃ s', Accepts after s prev path ls s' ∧ Q s'.frames

/-- A token of the kind `k` in a stream, before tokens of the kinds `r`. -/
structure Sees (k : TokenKind) (r : List TokenKind) (t : TokenView) : Prop where
  curr : t.curr.kind = k
  prev : t.prev.isSome
  nextKind : t.nextKind = r.head?
  next : k ≠ .streamEnd → ∃ n, t.next = some n ∧ t.curr.Heads n

variable {frames frames' above below : List Frame} {top f : Frame} {ks ks' r : List TokenKind}
  {k : TokenKind} {P Q : List Frame → Prop} {s s' : Indentation} {t : TokenView} {x y : Expect}
  {stack : List Expect}

theorem Reads.nil (h : Q frames) : Reads frames [] r Q := by
  intro ls after hls _ _ s prev path hs
  obtain rfl := List.map_eq_nil_iff.mp hls
  exact ⟨s, rfl, hs ▸ h⟩

theorem Reads.mono (h : Reads frames ks r P) (hPQ : ∀ fs, P fs → Q fs) : Reads frames ks r Q := by
  intro ls after hls hafter hstreams s prev path hs
  obtain ⟨s', haccepts, hs'⟩ := h ls after hls hafter hstreams s prev path hs
  exact ⟨s', haccepts, hPQ _ hs'⟩

theorem Accepts.append {ls ms after : List Lexeme} {prev : Lexeme} {path : List (Container × Mark)}
    (h : Accepts (ms ++ after) s prev path ls s')
    (hr : ∀ prev path, ∃ s₁, Accepts after s' prev path ms s₁ ∧ Q s₁.frames) :
    ∃ s₁, Accepts after s prev path (ls ++ ms) s₁ ∧ Q s₁.frames := by
  induction ls generalizing s prev path with
  | nil =>
    cases h
    exact hr prev path
  | cons l ls ih =>
    obtain ⟨hkind, v, s₂, hcheck, hv, h⟩ := h
    rw [← List.append_assoc] at hcheck
    obtain ⟨s₁, haccepts, hs₁⟩ := ih h
    exact ⟨s₁, ⟨hkind, v, s₂, hcheck, hv, haccepts⟩, hs₁⟩

theorem Reads.append (h : Reads frames ks (ks' ++ r) P)
    (hr : ∀ fs, P fs → Reads fs ks' r Q) : Reads frames (ks ++ ks') r Q := by
  intro ls after hls hafter hstreams s prev path hs
  obtain ⟨ls, ms, rfl, rfl, hms⟩ := List.map_eq_append_iff.mp hls
  rw [List.append_assoc] at hstreams
  have hmiddle : (ms ++ after).map (·.kind) = ks' ++ r := by rw [List.map_append, hms, hafter]
  obtain ⟨s₁, haccepts, hs₁⟩ := h ls _ rfl hmiddle hstreams s prev path hs
  exact haccepts.append fun prev path =>
    hr _ hs₁ ms after hms hafter hstreams.of_append s₁ prev path rfl

theorem place_verdict (s : Indentation) (top : Frame) (l : Lexeme) :
    (s.place top l).1 ≠ .unexpected := by
  unfold place
  dsimp only
  split <;> split <;> exact Verdict.noConfusion

theorem check_of_enter {l : Lexeme} {fs : List Frame} (hs : s.frames = top :: below)
    (hcurr : t.curr = l) (henter : (s.place top l).2.enter t = some s')
    (hclose : closeFrames t false false s'.frames = (fs, true)) :
    s.check t = ((s.place top l).1, { s' with frames := fs }) := by
  have htop : s.top? = some top := congrArg List.head? hs
  unfold check
  rw [htop]
  dsimp only
  rw [hcurr, henter]
  dsimp only
  rw [hclose]
  rfl

/-- A token that opens frames and closes some. -/
theorem Reads.token (hk : k ≠ .streamStart) (hne : frames ≠ [])
    (h : ∀ (t : TokenView) (s : Indentation), Sees k r t → s.frames = frames →
      ∃ s' fs, s.enter t = some s' ∧ closeFrames t false false s'.frames = (fs, true) ∧ Q fs) :
    Reads frames [k] r Q := by
  intro ls after hls hafter hstreams s prev path hs
  obtain ⟨l, rfl, rfl⟩ := List.map_eq_singleton_iff.mp hls
  obtain ⟨top, below, rfl⟩ := List.exists_cons_of_ne_nil hne
  let t : TokenView := ⟨l, some prev, after.head?, after[1]?, path⟩
  have hsees : Sees l.kind r t := by
    refine ⟨rfl, rfl, ?_, fun hend => ?_⟩
    · rw [← hafter, List.head?_map]
      rfl
    · obtain ⟨n, after, rfl, hheads⟩ := hstreams.next hend
      exact ⟨n, rfl, hheads⟩
  obtain ⟨s', fs, henter, hclose, hQ⟩ :=
    h t (s.place top l).2 hsees ((place_frames s top l).trans hs)
  exact ⟨_, ⟨hk, _, _, check_of_enter hs rfl henter hclose, place_verdict s top l, rfl⟩, hQ⟩

/-- A token that opens no frames. -/
theorem Reads.still (hk : opensNothing k = true) (hne : frames ≠ [])
    (h : ∀ t, Sees k r t → ∃ fs, closeFrames t false false frames = (fs, true) ∧ Q fs) :
    Reads frames [k] r Q := by
  refine .token (by rintro rfl; cases hk) hne fun t s ht hs => ?_
  obtain ⟨fs, hclose, hQ⟩ := h t ht
  exact ⟨s, fs, enter_of_opensNothing (ht.curr ▸ hk) s, hs ▸ hclose, hQ⟩

theorem Reads.outside (hf : f.kind = .root) (hks : ∀ k ∈ ks, opensNothing k = true) :
    Reads [f] ks r (· = [f]) := by
  induction ks with
  | nil => exact .nil rfl
  | cons k ks ih =>
    refine @Reads.append _ [k] ks r (· = [f]) _ ?_ fun fs hfs => ?_
    · exact .still (hks k List.mem_cons_self) (List.cons_ne_nil _ _) fun t _ =>
        ⟨[f], closeFrames_root hf, rfl⟩
    · rw [hfs]
      exact ih fun k hk => hks k (List.mem_cons_of_mem _ hk)

theorem Inner.ne_nil (h : Inner stack frames) : frames ≠ [] := by
  cases h with
  | root => exact List.cons_ne_nil _ _
  | node => exact List.append_ne_nil_of_right_ne_nil _ (List.cons_ne_nil _ _)

/-! Tokens between the nodes of a collection. -/

/-- A token in a collection, above whose frame there are keys and values. -/
theorem Reads.settle (hk : k ≠ .streamStart ∧ k.closes = false) (hne : frames ≠ [])
    (hy : isPart y = true)
    (h : ∀ (t : TokenView) (s : Indentation), Sees k r t → s.frames = frames →
      ∃ s' above f below, s.enter t = some s' ∧ s'.frames = above ++ f :: below ∧ Slack above ∧
        (CountsOnKey y r.head? → Marked above) ∧ Holds y f ∧ Inner stack below) :
    Reads frames [k] r (Part y stack r.head?) := by
  refine .token hk.1 hne fun t s ht hs => ?_
  obtain ⟨s', above, f, below, henter, hframes, hslack, hmarked, hf, hinner⟩ := h t s ht hs
  have hopen : false = true ∨ t.curr.kind.closes = false := Or.inr (ht.curr ▸ hk.2)
  obtain ⟨fs, hsettles, hclose⟩ := closeFrames_slack hslack
    (Inner.stays below (enclosure_of_isPart hy) hf hopen)
  rw [ht.nextKind] at hsettles
  exact ⟨s', _, henter, hframes ▸ hclose, hsettles.part hmarked hf hinner⟩

theorem Part.ne_nil {next : Option TokenKind} (h : Part x stack next frames) : frames ≠ [] := by
  obtain ⟨-, -, -, -, -⟩ := h
  exact List.append_ne_nil_of_right_ne_nil _ (List.cons_ne_nil _ _)

theorem Part.comma (h : Part x stack (some .flowEntry) frames) (hxy : Alike x y)
    (hcounts : CountsOnKey y r.head? → CountsOnKey x (some .flowEntry)) :
    Reads frames [.flowEntry] r (Part y stack r.head?) := by
  refine .settle ⟨TokenKind.noConfusion, rfl⟩ h.ne_nil hxy.part fun t s ht hs => ?_
  obtain ⟨hslack, -, hmarked, hf, hinner⟩ := h
  exact ⟨s, _, _, _, enter_of_opensNothing (ht.curr ▸ rfl) s, hs, hslack, hmarked ∘ hcounts,
    hf.congr hxy.kind hxy.inside, hinner⟩

theorem Part.key (h : Part x stack (some .key) frames) (hxy : Alike x y) :
    Reads frames [.key] r (Part y stack r.head?) := by
  refine .settle ⟨TokenKind.noConfusion, rfl⟩ h.ne_nil hxy.part fun t s ht hs => ?_
  obtain ⟨top, rest, htop⟩ := List.exists_cons_of_ne_nil h.ne_nil
  obtain ⟨-, hspent, -, hf, hinner⟩ := h
  let key : Frame := { kind := .key, indent := top.indent, explicitKey := hasQuestionMark t.curr }
  have henter : s.enter t = some (s.push key) := by
    unfold enter top?
    rw [ht.curr, hs, htop]
    rfl
  have hmarked : Marked (key :: _) := .key rfl (hspent rfl)
  exact ⟨_, key :: _, _, _, henter, congrArg (key :: ·) hs, Or.inr hmarked, fun _ => hmarked,
    hf.congr hxy.kind hxy.inside, hinner⟩

theorem openValue_isSome (htop : s.top? = some top) (hkind : top.kind = .key)
    (hprev : t.prev.isSome) : ∃ s', s.openValue t = some s' := by
  obtain ⟨prev, hprev⟩ := Option.isSome_iff_exists.mp hprev
  unfold openValue
  rw [htop, hprev]
  dsimp only
  rw [if_neg (not_not_intro hkind)]
  split
  · exact ⟨_, rfl⟩
  · split
    · exact ⟨_, rfl⟩
    · exact ⟨_, rfl⟩

theorem Part.value (h : Part x stack (some .value) frames) (hx : CountsOnKey x (some .value))
    (hxy : Alike x y) (hy : ¬CountsOnKey y r.head?) :
    Reads frames [.value] r (Part y stack r.head?) := by
  refine .settle ⟨TokenKind.noConfusion, rfl⟩ h.ne_nil hxy.part fun t s ht hs => ?_
  obtain ⟨-, -, hmarked, hf, hinner⟩ := h
  have hf := hf.congr hxy.kind hxy.inside
  obtain @⟨key, rest, hkey, hrest⟩ := hmarked hx
  have henter : s.enter t = s.openValue t := by
    unfold enter
    rw [ht.curr]
  obtain ⟨s', hs'⟩ := openValue_isSome (congrArg List.head? hs) hkey ht.prev
  obtain ⟨-, -, -, hframes | ⟨v, hvalue, hframes⟩⟩ := openValue_frames hs'
  · exact ⟨s', _, _, _, henter.trans hs', hframes.trans hs, Or.inr (.key hkey hrest),
      fun hcounts => absurd hcounts hy, hf, hinner⟩
  · exact ⟨s', v :: key :: rest, _, _, henter.trans hs', hframes.trans (congrArg (v :: ·) hs),
      Or.inl (.value hvalue hkey hrest), fun hcounts => absurd hcounts hy, hf, hinner⟩

/-! Entries of sequences. -/

theorem openEntry_isSome (h : ∃ n, t.next = some n) : ∃ s', s.openEntry t = some s' := by
  obtain ⟨n, hn⟩ := h
  unfold openEntry
  rw [hn]
  exact ⟨_, rfl⟩

theorem Sees.openEntry (ht : Sees .blockEntry r t)
    (hnext : r.head? ≠ some .blockEntry ∧ r.head? ≠ some .blockEnd) (s : Indentation) :
    ∃ s', s.enter t = some s' ∧ s.openEntry t = some s' := by
  obtain ⟨n, hn, -⟩ := ht.next TokenKind.noConfusion
  obtain ⟨s', hs'⟩ := openEntry_isSome (s := s) ⟨n, hn⟩
  refine ⟨s', ?_, hs'⟩
  unfold enter
  rw [ht.curr, ht.nextKind]
  dsimp only
  rw [if_neg (not_or.mpr hnext), hs']

/-- An entry before a node, in a sequence that has its frame on top. -/
theorem Reads.entry (hy : y = .blockSequence false ∨ y = .indentlessSequence) (hf : Holds y f)
    (hlist : y = .indentlessSequence → InMapping stack) (h : Inner stack below)
    (hnext : r.head? ≠ some .blockEntry ∧ r.head? ≠ some .blockEnd) :
    Reads (f :: below) [.blockEntry] r (Inner (y :: stack)) := by
  refine .token TokenKind.noConfusion (List.cons_ne_nil _ _) fun t s ht hs => ?_
  obtain ⟨s', henter, hopen⟩ := ht.openEntry hnext s
  have htop : s.top?.map (·.kind) = some .blockSequence := by
    unfold top?
    rw [hs]
    exact congrArg some (hf.kind.trans (by rcases hy with rfl | rfl <;> rfl))
  obtain ⟨e, lists, he, hframes, ⟨rfl, -⟩ | ⟨-, -, -, -, hne⟩⟩ := openEntry_frames hopen
  · rw [List.nil_append, hs] at hframes
    refine ⟨s', _, henter, ?_, @Inner.node _ _ [e] _ _ ?_ hf hlist h⟩
    · rw [hframes]
      exact closeFrames_entry_stays he (ht.nextKind ▸ hnext.1) (ht.nextKind ▸ hnext.2)
        (Or.inl ht.curr)
    · rcases hy with rfl | rfl <;> exact ⟨e, rfl, he⟩
  · exact absurd htop hne

theorem Inner.top_kind (h : Inner stack frames) (hlist : InMapping stack) :
    frames.head?.map (·.kind) ≠ some .blockSequence := by
  obtain ⟨x, r, rfl, hx, -⟩ := hlist
  cases h with
  | root => cases hx
  | @node _ _ above below f habove hf =>
    have hkind : frameKind x = .blockMapping := by cases x <;> first | rfl | cases hx
    have hslack : Slack above := by
      rcases habove.cases with ⟨-, h⟩ | ⟨-, rfl | rfl⟩
      · exact h
      · cases hx
      · cases hx
    rcases hslack with (_ | ⟨hvalue, -, -⟩) | ⟨hkey, -⟩
    · simp [hf.kind, hkind]
    · simp [hvalue]
    · simp [hkey]

/-- The first entry of a list that is not empty opens the frame of the list. -/
theorem Reads.firstEntry (h : Inner stack frames) (hlist : InMapping stack)
    (hnext : r.head? ≠ some .blockEntry ∧ r.head? ≠ some .blockEnd) :
    Reads frames [.blockEntry] r (Inner (.indentlessSequence :: stack)) := by
  refine .token TokenKind.noConfusion h.ne_nil fun t s ht hs => ?_
  obtain ⟨s', henter, hopen⟩ := ht.openEntry hnext s
  have htop := h.top_kind hlist
  obtain ⟨e, lists, he, hframes, ⟨-, hkind⟩ | ⟨list, rfl, hkind, himplicit, -⟩⟩ :=
    openEntry_frames hopen
  · rw [top?, hs] at hkind
    exact absurd hkind htop
  · rw [hs] at hframes
    refine ⟨s', _, henter, ?_,
      @Inner.node _ _ [e] _ _ ⟨e, rfl, he⟩ ⟨hkind, himplicit⟩ (fun _ => hlist) h⟩
    rw [hframes]
    exact closeFrames_entry_stays he (ht.nextKind ▸ hnext.1) (ht.nextKind ▸ hnext.2)
      (Or.inl ht.curr)

/-- An entry without a node leaves the frames as they are. -/
theorem Reads.emptyEntry (hne : frames ≠ [])
    (hnext : r.head? = some .blockEntry ∨ r.head? = some .blockEnd)
    (h : ∀ t, Sees .blockEntry r t →
      ∃ fs, closeFrames t false false frames = (fs, true) ∧ Q fs) :
    Reads frames [.blockEntry] r Q := by
  refine .token TokenKind.noConfusion hne fun t s ht hs => ?_
  obtain ⟨fs, hclose, hQ⟩ := h t ht
  refine ⟨s, fs, ?_, hs ▸ hclose, hQ⟩
  unfold enter
  rw [ht.curr, ht.nextKind]
  exact if_pos hnext

/-! Nodes. -/

theorem closer_spec {k : TokenKind} (h : x.closer? = some k) :
    k.closes = true ∧ endsKey k = true ∧ opensNothing k = true ∧ keepsValue k = false ∧
      k ≠ .blockEntry := by
  unfold Expect.closer? at h
  cases hx : x.enclosure <;> rw [hx] at h <;> cases h <;>
    exact ⟨rfl, rfl, rfl, rfl, TokenKind.noConfusion⟩

/-- The end of a collection. -/
theorem Reads.close (hspent : Spent above) (hf : Holds x f) (hclose : x.closer? = some k)
    (h : Inner stack below) : Reads (above ++ f :: below) [k] r (Rests stack r.head?) := by
  obtain ⟨-, -, hopens, hkeeps, hentry⟩ := closer_spec hclose
  refine .still hopens (List.append_ne_nil_of_right_ne_nil _ (List.cons_ne_nil _ _)) fun t ht => ?_
  rw [← ht.curr] at hkeeps hentry hclose
  rw [← ht.nextKind, closeFrames_spent hspent hkeeps, closeFrames_closes hf hclose]
  exact h.closes hkeeps hentry (Or.inl rfl)

/-- A node of one token. -/
theorem Reads.leaf (h : Inner stack frames) (hopens : opensNothing k = true)
    (hkeeps : keepsValue k = false) (hclose : k.closes = false) :
    Reads frames [k] r (Rests stack r.head?) := by
  have hentry : k ≠ .blockEntry := by rintro rfl; cases hopens
  refine .still hopens h.ne_nil fun t ht => ?_
  rw [← ht.curr] at hkeeps hentry hclose
  rw [← ht.nextKind]
  exact h.closes hkeeps hentry (Or.inr hclose)

theorem property_spec {k : TokenKind} (h : k.isProperty = true) :
    isDecoration k = true ∧ opensNothing k = true ∧ endsKey k = false ∧ k ≠ .blockEntry := by
  cases k <;> first | exact ⟨rfl, rfl, rfl, TokenKind.noConfusion⟩ | cases h

/-- Anchors and tags before the content of a node. -/
theorem Reads.properties (h : Inner stack frames) (hks : ∀ k ∈ ks, k.isProperty = true)
    (hnext : r.head?.any endsKey = false)
    (hentry : r.head? = some .blockEntry → InMapping stack) :
    Reads frames ks r (Inner stack) := by
  induction ks generalizing frames with
  | nil => exact .nil h
  | cons k ks ih =>
    obtain ⟨hdecoration, hopens, -, -⟩ := property_spec (hks k List.mem_cons_self)
    have hrest := fun k hk => hks k (List.mem_cons_of_mem _ hk)
    have hbehind : (ks ++ r).head?.any endsKey = false ∧
        ((ks ++ r).head? = some .blockEntry → InMapping stack) := by
      cases ks with
      | nil => exact ⟨hnext, hentry⟩
      | cons k' ks =>
        obtain ⟨-, -, hends, hne⟩ := property_spec (hrest k' List.mem_cons_self)
        exact ⟨hends, fun heq => absurd (Option.some.inj heq) hne⟩
    refine @Reads.append _ [k] ks r (Inner stack) _ ?_ fun fs hfs => ih hfs hrest
    refine .still hopens h.ne_nil fun t ht => ?_
    rw [← ht.curr] at hdecoration
    exact h.keeps (Or.inl hdecoration) (closes_of_isDecoration hdecoration)
      (ht.nextKind ▸ hbehind.1) (ht.nextKind ▸ hbehind.2)

/-- A collection opens its frame above those around it. -/
theorem Reads.opens (h : Inner stack frames) (hk : k ≠ .streamStart ∧ k.closes = false)
    (hy : y.enclosure ≠ .document ∧ y.enclosure ≠ .list)
    (henter : ∀ (t : TokenView) (s : Indentation), Sees k r t → ∃ s' f, s.enter t = some s' ∧
      (f.kind = frameKind y ∧ f.implicit = false) ∧ s'.frames = f :: s.frames) :
    Reads frames [k] r (fun fs => ∃ f, fs = f :: frames ∧ Holds y f) := by
  refine .token hk.1 h.ne_nil fun t s ht hs => ?_
  obtain ⟨s', f, henter, ⟨hkind, himplicit⟩, hframes⟩ := henter t s ht
  have hf : Holds y f := ⟨hkind, himplicit.trans (beq_eq_false_iff_ne.mpr hy.2).symm⟩
  refine ⟨s', f :: frames, henter, ?_, f, rfl, hf⟩
  rw [hframes, hs]
  exact Inner.stays _ hy.1 hf (Or.inr (ht.curr ▸ hk.2))

theorem Part.opened {next : Option TokenKind} (hf : Holds x f) (h : Inner stack below)
    (hcounts : ¬CountsOnKey x next) : Part x stack next (f :: below) :=
  @Part.part _ _ _ [] _ _ (Or.inl .nil) (fun _ => .nil) (fun hc => absurd hc hcounts) hf h

theorem openBlock_isSome {kind : FrameKind} {first : TokenKind} {n : Lexeme}
    (hn : t.next = some n) (hkind : n.kind = first ∧ n.start.line = t.curr.start.line) :
    ∃ s' f, s.openBlock kind first t = some s' ∧ (f.kind = kind ∧ f.implicit = false) ∧
      s'.frames = f :: s.frames := by
  obtain ⟨s', hs'⟩ : ∃ s', s.openBlock kind first t = some s' := by
    unfold openBlock
    rw [hn]
    dsimp only
    rw [if_pos hkind]
    exact ⟨_, rfl⟩
  obtain ⟨f, hf, hframes⟩ := openBlock_frames hs'
  exact ⟨s', f, hs', hf, hframes⟩

theorem openFlow_isSome {kind : FrameKind} {n : Lexeme} (hn : t.next = some n) :
    ∃ s' f, s.openFlow kind t = some s' ∧ (f.kind = kind ∧ f.implicit = false) ∧
      s'.frames = f :: s.frames := by
  obtain ⟨s', hs'⟩ : ∃ s', s.openFlow kind t = some s' := by
    unfold openFlow
    rw [hn]
    exact ⟨_, rfl⟩
  obtain ⟨f, hf, hframes⟩ := openFlow_frames hs'
  exact ⟨s', f, hs', hf, hframes⟩

/-- A block mapping starts with the mark of a key, unless its first key is missing. -/
theorem Reads.blockMapping (h : Inner stack frames) (hnext : r.head? ≠ some .value) :
    Reads frames [.blockMappingStart] r (Rests (.blockMappingKey true :: stack) r.head?) := by
  refine (Reads.opens (y := .blockMappingKey true) h ⟨TokenKind.noConfusion, rfl⟩
    ⟨Yaml.Enclosure.noConfusion, Yaml.Enclosure.noConfusion⟩ fun t s ht => ?_).mono ?_
  · obtain ⟨n, hn, hheads⟩ := ht.next TokenKind.noConfusion
    have hkind : some n.kind = r.head? := by rw [← ht.nextKind, TokenView.nextKind, hn, Option.map]
    have hhead := (hheads.mapping ht.curr).resolve_right fun hvalue =>
      hnext (hkind.symm.trans (congrArg some hvalue))
    unfold enter
    rw [ht.curr]
    exact openBlock_isSome hn hhead
  · rintro _ ⟨f, rfl, hf⟩
    exact .part rfl (.opened hf h id)

theorem Reads.blockSequence (h : Inner stack frames) :
    Reads frames [.blockSequenceStart] r (Rests (.blockSequence true :: stack) r.head?) := by
  refine (Reads.opens (y := .blockSequence true) h ⟨TokenKind.noConfusion, rfl⟩
    ⟨Yaml.Enclosure.noConfusion, Yaml.Enclosure.noConfusion⟩ fun t s ht => ?_).mono ?_
  · obtain ⟨n, hn, hheads⟩ := ht.next TokenKind.noConfusion
    unfold enter
    rw [ht.curr]
    exact openBlock_isSome hn (hheads.sequence ht.curr)
  · rintro _ ⟨f, rfl, hf⟩
    exact .sequence hf h

theorem Reads.flow (h : Inner stack frames) (hk : k = .flowMappingStart ∧ y = .flowMappingKey true ∨
    k = .flowSequenceStart ∧ y = .flowSequence true) :
    Reads frames [k] r (Rests (y :: stack) r.head?) := by
  have hkind : (k ≠ .streamStart ∧ k.closes = false) ∧ k ≠ .streamEnd := by
    rcases hk with ⟨rfl, -⟩ | ⟨rfl, -⟩ <;>
      exact ⟨⟨TokenKind.noConfusion, rfl⟩, TokenKind.noConfusion⟩
  have hin : y.enclosure ≠ .document ∧ y.enclosure ≠ .list := by
    rcases hk with ⟨-, rfl⟩ | ⟨-, rfl⟩ <;>
      exact ⟨Yaml.Enclosure.noConfusion, Yaml.Enclosure.noConfusion⟩
  refine (Reads.opens h hkind.1 hin fun t s ht => ?_).mono ?_
  · obtain ⟨n, hn, -⟩ := ht.next hkind.2
    unfold enter
    rw [ht.curr]
    rcases hk with ⟨rfl, rfl⟩ | ⟨rfl, rfl⟩ <;> exact openFlow_isSome hn
  · rintro _ ⟨f, rfl, hf⟩
    rcases hk with ⟨-, rfl⟩ | ⟨-, rfl⟩ <;> exact .part rfl (.opened hf h id)

/-- An anchor or a tag without a content. -/
theorem Reads.bare (h : Inner stack frames) (hks : ∀ k ∈ ks, k.isProperty = true) (hne : ks ≠ [])
    (hlast : stack.head? = some .indentlessSequence →
      r.head?.any Yaml.Parser.endsBlockPart = false) :
    Reads frames ks r (Rests stack r.head?) := by
  obtain ⟨ks, k, rfl⟩ := (List.eq_nil_or_concat ks).resolve_left hne
  rw [List.concat_eq_append] at hks ⊢
  obtain ⟨hdecoration, hopens, hends, hentry⟩ := property_spec (hks k List.mem_concat_self)
  have hbefore : ∀ j ∈ ks, j.isProperty = true := fun j hj => hks j (List.mem_append_left _ hj)
  refine .append (.properties h hbefore hends fun heq => absurd (Option.some.inj heq) hentry)
    fun fs hfs => .still hopens hfs.ne_nil fun t ht => ?_
  rw [← ht.curr] at hdecoration
  rw [← ht.nextKind] at hlast ⊢
  exact hfs.closes_bare hdecoration hlast

/-- The first tokens of a node, up to the one that opens a collection or to the end of the node. -/
theorem Reads.node {event : Yaml.EventKind} {opened : List Expect} (h : Inner stack frames)
    (hbegins : Begins ks event opened)
    (hlist : ∀ z ∈ opened, z.closer? = none → InMapping stack ∧ r.head? = some .blockEntry)
    (hmapping : opened.head? = some (.blockMappingKey true) → r.head? ≠ some .value)
    (hbare : stack.head? = some .indentlessSequence → (∀ k ∈ ks, k.isProperty = true) →
      r.head?.any Yaml.Parser.endsBlockPart = false) :
    Reads frames ks r (Rests (opened ++ stack) r.head?) := by
  have hcontent {ps : List TokenKind} {anchor : Option String} {tag : Option Yaml.Tag}
      {k : TokenKind} (hps : Yaml.Properties ps anchor tag)
      (hk : endsKey k = false ∧ k ≠ .blockEntry)
      (hread : ∀ fs, Inner stack fs → Reads fs [k] r (Rests (opened ++ stack) r.head?)) :
      Reads frames (ps ++ [k]) r (Rests (opened ++ stack) r.head?) :=
    .append (.properties h hps.kinds hk.1 fun heq => absurd (Option.some.inj heq) hk.2) hread
  cases hbegins with
  | «alias» name => exact .leaf h rfl rfl rfl
  | scalar hps text style =>
    exact hcontent hps ⟨rfl, TokenKind.noConfusion⟩ fun fs hfs => .leaf hfs rfl rfl rfl
  | empty hps hne => exact .bare h hps.kinds hne fun hs => hbare hs hps.kinds
  | sequence hps hz =>
    cases hz with
    | block => exact hcontent hps ⟨rfl, TokenKind.noConfusion⟩ fun fs hfs => .blockSequence hfs
    | brackets =>
      exact hcontent hps ⟨rfl, TokenKind.noConfusion⟩ fun fs hfs => .flow hfs (Or.inr ⟨rfl, rfl⟩)
    | list =>
      obtain ⟨hin, hnext⟩ := hlist _ List.mem_cons_self rfl
      rw [List.append_nil]
      refine (Reads.properties h hps.kinds (by rw [hnext]; rfl) fun _ => hin).mono fun fs hfs => ?_
      rw [hnext]
      exact .fresh hin hfs
  | mapping hps flow =>
    cases flow with
    | true =>
      exact hcontent hps ⟨rfl, TokenKind.noConfusion⟩ fun fs hfs => .flow hfs (Or.inl ⟨rfl, rfl⟩)
    | false =>
      exact hcontent hps ⟨rfl, TokenKind.noConfusion⟩ fun fs hfs =>
        .blockMapping hfs (hmapping rfl)

end Indentation

end Blueprint
