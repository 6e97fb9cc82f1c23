import Blueprint.Proofs.HeldRun

/-!
Where the text of each token is and what lies between two of them: white space and comments only. The
tokens that stand for no text are put where the text of the next token starts.
-/

namespace Blueprint.Yaml

open Scanner (Skips Steps Ends)

/-- A token with the start of its text and the end of what has been read with it. -/
structure PlacedToken where
  token : Token
  first : Nat
  upto : Nat

namespace PlacedToken

/-- The text that a token is read from, or the place where it is put. -/
inductive Fits (text : List Char) : PlacedToken → Prop
  | start : Fits text ⟨⟨.streamStart, ⟨0, 1, 0⟩⟩, 0, 0⟩
  | read {t : Token} {a b : Nat} : Spells text a t b → Written text a t.kind b → Fits text ⟨t, a, b⟩
  | put {t : Token} {a n : Nat} : t.kind.isBare = true → t.kind ≠ .streamStart → n ≤ a →
    t.kind = .blockMappingStart ∨ t.mark = (placeAt text a).mark → Fits text ⟨t, a, n⟩
  | close {t : Token} {a n : Nat} : t.kind = .blockEnd ∨ t.kind = .streamEnd → n ≤ a →
    isEnd (charAt text a) = true → t.mark.index = a → lineAt text a ≤ t.mark.line →
    Fits text ⟨t, a, n⟩

/-- A token that has been put at a place. -/
def IsPut (g : PlacedToken) : Prop :=
  g.token.kind ≠ .streamStart ∧ g.upto ≤ g.first

/-- The next token is read behind white space and comments, from where a token was put if it was. What
is put leaves the text where it has been read up to. -/
structure Follows (text : List Char) (g h : PlacedToken) : Prop where
  skips : Skips text g.upto h.first
  same : g.IsPut → h.first = g.first
  keeps : h.IsPut → h.upto = g.upto

variable {text : List Char} {g : PlacedToken}

/-- A token that has been put has no text of its own. -/
theorem Fits.isBare (h : g.Fits text) (hput : g.IsPut) : g.token.kind.isBare = true := by
  cases h with
  | start => exact absurd rfl hput.1
  | read hspells _ => exact absurd hspells.lt (Nat.not_lt.mpr hput.2)
  | put hbare _ _ _ => exact hbare
  | @close t _ _ hkind _ _ _ _ =>
    obtain ⟨kind, mark⟩ := t
    rcases hkind with rfl | rfl <;> rfl

/-- A token that has not been put is the start of the stream, or it is read from its text. -/
theorem Fits.read_of_not_isPut (h : g.Fits text) (hput : ¬g.IsPut) :
    g = ⟨⟨.streamStart, ⟨0, 1, 0⟩⟩, 0, 0⟩ ∨
      Spells text g.first g.token g.upto ∧ Written text g.first g.token.kind g.upto := by
  cases h with
  | start => exact Or.inl rfl
  | read hspells hwritten => exact Or.inr ⟨hspells, hwritten⟩
  | put _ hstart hle _ => exact absurd ⟨hstart, hle⟩ hput
  | @close t _ _ hkind hle _ _ _ =>
    refine absurd ⟨fun hstart => ?_, hle⟩ hput
    rw [hstart] at hkind
    rcases hkind with hkind | hkind <;> cases hkind

/-- A place that the text has been read up to: its start, or the end of what is read as a token. -/
def Closed (text : List Char) (n : Nat) : Prop :=
  n = 0 ∨ ∃ a kind, Written text a kind n

theorem Fits.closed (h : g.Fits text) (hput : ¬g.IsPut) : Closed text g.upto := by
  rcases h.read_of_not_isPut hput with rfl | ⟨-, hwritten⟩
  · exact Or.inl rfl
  · exact Or.inr ⟨_, _, hwritten⟩

/-- Tokens without a text of their own, put at `a` when the text has been read up to `n`. -/
def putAt (a n : Nat) (ts : List Token) : List PlacedToken :=
  ts.map fun t => ⟨t, a, n⟩

theorem map_putAt {a n : Nat} {ts : List Token} : (putAt a n ts).map (·.token) = ts := by
  rw [putAt, List.map_map]
  exact List.map_id ts

theorem length_putAt {a n : Nat} {ts : List Token} : (putAt a n ts).length = ts.length :=
  List.length_map _

theorem forall_mem_putAt {a n : Nat} {ts : List Token} {g : PlacedToken} (h : g ∈ putAt a n ts) :
    g.token ∈ ts ∧ g.first = a ∧ g.upto = n := by
  obtain ⟨t, ht, rfl⟩ := List.mem_map.mp h
  exact ⟨ht, rfl, rfl⟩

/-- Tokens put at one place follow each other. -/
theorem isChain_putAt {text : List Char} {a n : Nat} {ts : List Token} (h : Skips text n a) :
    (putAt a n ts).IsChain (Follows text) :=
  (List.pairwise_of_forall_mem_list fun g hg g' hg' => by
    obtain ⟨-, hfirst, hupto⟩ := forall_mem_putAt hg
    obtain ⟨-, hfirst', hupto'⟩ := forall_mem_putAt hg'
    exact ⟨by rwa [hupto, hfirst'], fun _ => hfirst'.trans hfirst.symm,
      fun _ => hupto'.trans hupto.symm⟩).isChain

end PlacedToken

open PlacedToken

/-- A token that may be put before the next text. -/
def Token.PutAt (text : List Char) (a : Nat) (t : Token) : Prop :=
  t.kind.isBare = true ∧ t.kind ≠ .streamStart ∧
    (t.kind = .blockMappingStart ∨ t.mark = (placeAt text a).mark)

theorem Opening.putAt {text : List Char} {a : Nat} {start kind : TokenKind} (h : Opening start kind) :
    (⟨start, (placeAt text a).mark⟩ : Token).PutAt text a := by
  cases h <;> exact ⟨rfl, TokenKind.noConfusion, Or.inr rfl⟩

/-- Tokens, each with its place. -/
structure Placed (text : List Char) (gs : List PlacedToken) (ts : List Token) : Prop where
  tokens : gs.map (·.token) = ts
  fits : ∀ g ∈ gs, g.Fits text
  chain : gs.IsChain (Follows text)

/-- Whatever is put between tokens, the text has been read up to the end of one. -/
theorem closed_of_isChain {text : List Char} {g : PlacedToken} {gs : List PlacedToken}
    (hchain : (g :: gs).IsChain (Follows text)) (hfits : ∀ h ∈ gs, h.Fits text)
    (hg : Closed text g.upto) : ∀ h ∈ g :: gs, Closed text h.upto := by
  induction gs generalizing g with
  | nil => exact List.forall_mem_singleton.mpr hg
  | cons h gs ih =>
    obtain ⟨hfollows, htail⟩ := List.isChain_cons_cons.mp hchain
    refine List.forall_mem_cons.mpr ⟨hg, ih htail (fun x hx => hfits x (List.mem_cons_of_mem h hx)) ?_⟩
    by_cases hput : h.IsPut
    · exact hfollows.keeps hput ▸ hg
    · exact (hfits h List.mem_cons_self).closed hput

/-- The first token is the start of the stream. -/
theorem Placed.closed {text : List Char} {gs : List PlacedToken} {t : Token} {ts : List Token}
    (h : Placed text gs (t :: ts)) (hstart : t.kind = .streamStart) :
    ∀ g ∈ gs, Closed text g.upto := by
  obtain ⟨g, rest, rfl, rfl, -⟩ := List.map_eq_cons_iff.mp h.tokens
  refine closed_of_isChain h.chain (fun x hx => h.fits x (List.mem_cons_of_mem g hx)) ?_
  exact (h.fits g List.mem_cons_self).closed fun hput => hput.1 hstart

/-- The tokens that wait when the text has been read up to `n`. An open key knows the token it starts
with. -/
structure Placement (text : List Char) (gs : List PlacedToken) (ts : List Token)
    (ks : List SimpleKey) (n : Nat) : Prop extends Placed text gs ts where
  last : ∀ g ∈ gs.getLast?, g.upto = n ∧ ¬g.IsPut
  keys : ∀ k ∈ ks, 0 < k.token ∧ ∃ g, gs[k.token]? = some g ∧ k.mark = (placeAt text g.first).mark

namespace Placement

variable {text : List Char} {gs : List PlacedToken} {ts ts' puts : List Token}
  {ks ks' : List SimpleKey} {n a b : Nat} {t : Token}

theorem length_eq (h : Placement text gs ts ks n) : gs.length = ts.length := by
  rw [← h.tokens, List.length_map]

/-- Tokens that are put behind the last one, at the place that has been reached. -/
theorem isChain_append (h : Placement text gs ts ks n) (hskips : Skips text n a)
    {new : List PlacedToken} (hnew : new.IsChain (Follows text))
    (hfirst : ∀ g ∈ new, g.first = a ∧ (g.IsPut → g.upto = n)) :
    (gs ++ new).IsChain (Follows text) := by
  refine List.isChain_append.mpr ⟨h.chain, hnew, fun g hg g' hg' => ?_⟩
  obtain ⟨hupto, hput⟩ := h.last g hg
  obtain ⟨hfirst, hkeeps⟩ := hfirst g' (List.mem_of_mem_head? hg')
  exact ⟨by rwa [hupto, hfirst], fun hg => absurd hg hput, fun hg' => (hkeeps hg').trans hupto.symm⟩

theorem withKeys (h : Placement text gs ts ks n) (hks : ∀ k ∈ ks', k ∈ ks) :
    Placement text gs ts ks' n :=
  { h with keys := fun k hk => h.keys k (hks k hk) }

theorem fits_putAt (hle : n ≤ a) (hputs : ∀ u ∈ puts, u.PutAt text a) {g : PlacedToken}
    (hg : g ∈ putAt a n puts) : g.Fits text := by
  obtain ⟨u, hu, rfl⟩ := List.mem_map.mp hg
  obtain ⟨hbare, hstart, hmark⟩ := hputs u hu
  exact .put hbare hstart hle hmark

/-- A token is read, behind others that are put before it. It may be the start of a key. -/
theorem read (h : Placement text gs ts ks n) (hne : ts ≠ []) (hskips : Skips text n a)
    (hputs : ∀ u ∈ puts, u.PutAt text a) (hspells : Spells text a t b)
    (hwritten : Written text a t.kind b)
    (hks : ∀ k ∈ ks', k ∈ ks ∨ (k.token = (ts ++ puts).length ∧ k.mark = (placeAt text a).mark)) :
    Placement text (gs ++ (putAt a n puts ++ [⟨t, a, b⟩])) (ts ++ puts ++ [t]) ks' b where
  tokens := by
    rw [List.map_append, List.map_append, h.tokens, map_putAt, List.append_assoc]
    rfl
  fits g hg := by
    rcases List.mem_append.mp hg with hg | hg
    · exact h.fits g hg
    rcases List.mem_append.mp hg with hg | hg
    · exact fits_putAt hskips.le hputs hg
    · rw [List.mem_singleton.mp hg]
      exact .read hspells hwritten
  chain := by
    refine h.isChain_append hskips ?_ fun g hg => ?_
    · refine List.isChain_append.mpr
        ⟨isChain_putAt hskips, List.isChain_singleton _, fun g hg g' hg' => ?_⟩
      obtain ⟨-, hfirst, hupto⟩ := forall_mem_putAt (List.mem_of_mem_getLast? hg)
      cases hg'
      exact ⟨by rwa [hupto], fun _ => hfirst.symm,
        fun hput => absurd hspells.lt (Nat.not_lt.mpr hput.2)⟩
    · rcases List.mem_append.mp hg with hg | hg
      · obtain ⟨-, hfirst, hupto⟩ := forall_mem_putAt hg
        exact ⟨hfirst, fun _ => hupto⟩
      · rw [List.mem_singleton.mp hg]
        exact ⟨rfl, fun hput => absurd hspells.lt (Nat.not_lt.mpr hput.2)⟩
  last g hg := by
    rw [← List.append_assoc, List.getLast?_concat] at hg
    cases hg
    exact ⟨rfl, fun hput => absurd hspells.lt (Nat.not_lt.mpr hput.2)⟩
  keys k hk := by
    rcases hks k hk with hk | ⟨hnumber, hmark⟩
    · obtain ⟨hpos, g, hg, hmark⟩ := h.keys k hk
      refine ⟨hpos, g, ?_, hmark⟩
      rw [List.getElem?_append_left (List.getElem?_eq_some_iff.mp hg).1]
      exact hg
    · refine ⟨?_, ⟨t, a, b⟩, ?_, hmark⟩
      · rw [hnumber]
        exact List.length_pos_of_ne_nil (List.append_ne_nil_of_left_ne_nil hne _)
      · rw [hnumber, ← List.append_assoc, List.length_append, ← h.length_eq,
          ← @length_putAt a n puts, ← List.length_append]
        exact List.getElem?_concat_length

/-- Tokens are put between one and the next. -/
theorem isChain_put_between {front back : List PlacedToken} {p g : PlacedToken}
    (h : (front ++ [p] ++ g :: back).IsChain (Follows text)) :
    (front ++ [p] ++ (putAt g.first p.upto puts ++ g :: back)).IsChain (Follows text) := by
  obtain ⟨hbefore, hbehind, hlink⟩ := List.isChain_append.mp h
  have hfollows : p.Follows text g := hlink p List.getLast?_concat g rfl
  refine List.isChain_append.mpr ⟨hbefore, List.isChain_append.mpr
    ⟨isChain_putAt hfollows.skips, hbehind, fun u hu i hi => ?_⟩, fun q hq u hu => ?_⟩
  · obtain ⟨-, hsame, hupto⟩ := forall_mem_putAt (List.mem_of_mem_getLast? hu)
    cases hi
    exact ⟨by rw [hupto]; exact hfollows.skips, fun _ => hsame.symm,
      fun hput => (hfollows.keeps hput).trans hupto.symm⟩
  · rw [List.getLast?_concat] at hq
    cases hq
    rw [List.head?_append] at hu
    rcases Option.or_eq_some_iff.mp hu with hu | ⟨-, hu⟩
    · obtain ⟨-, hfirst, hupto⟩ := forall_mem_putAt (List.mem_of_mem_head? hu)
      exact ⟨hfirst.symm ▸ hfollows.skips, fun hput => hfirst.trans (hfollows.same hput),
        fun _ => hupto⟩
    · cases hu
      exact hfollows

/-- Tokens are put before the token that a key starts with. -/
theorem insert {k : SimpleKey} (h : Placement text gs ts ks n) (hk : k ∈ ks)
    (hputs : ∀ a, k.mark = (placeAt text a).mark → ∀ u ∈ puts, u.PutAt text a)
    (hks : ∀ j ∈ ks', j ∈ ks ∧ j.token ≤ k.token) :
    ∃ gs', Placement text gs' (ts.take k.token ++ (puts ++ ts.drop k.token)) ks' n := by
  obtain ⟨hpos, g, hg, hmark⟩ := h.keys k hk
  have hlt := (List.getElem?_eq_some_iff.mp hg).1
  have hdrop : gs.drop k.token = g :: gs.drop (k.token + 1) := by
    rw [List.drop_eq_getElem_cons hlt, (List.getElem?_eq_some_iff.mp hg).2]
  obtain ⟨front, p, hfront⟩ : ∃ front p, gs.take k.token = front ++ [p] := by
    refine (List.eq_nil_or_concat' (gs.take k.token)).resolve_left fun hnil => ?_
    have := congrArg List.length hnil
    rw [List.length_take, List.length_nil] at this
    omega
  have hchain := h.chain
  rw [← List.take_append_drop k.token gs, hfront, hdrop] at hchain
  have hfollows : p.Follows text g :=
    (List.isChain_append.mp hchain).2.2 p List.getLast?_concat g rfl
  have hfirst {g' : PlacedToken} (hg' : g' ∈ (putAt g.first p.upto puts ++ gs.drop k.token).head?) :
      g'.first = g.first := by
    rw [List.head?_append] at hg'
    rcases Option.or_eq_some_iff.mp hg' with hg' | ⟨-, hg'⟩
    · exact (forall_mem_putAt (List.mem_of_mem_head? hg')).2.1
    · rw [hdrop] at hg'
      cases hg'
      rfl
  refine ⟨gs.take k.token ++ (putAt g.first p.upto puts ++ gs.drop k.token), ⟨?_, ?_, ?_⟩, ?_, ?_⟩
  · rw [List.map_append, List.map_append, List.map_take, List.map_drop, h.tokens, map_putAt]
  · intro g' hg'
    rcases List.mem_append.mp hg' with hg' | hg'
    · exact h.fits g' (List.mem_of_mem_take hg')
    rcases List.mem_append.mp hg' with hg' | hg'
    · exact fits_putAt hfollows.skips.le (hputs g.first hmark) hg'
    · exact h.fits g' (List.mem_of_mem_drop hg')
  · rw [hfront, hdrop]
    exact isChain_put_between hchain
  · intro g' hg'
    refine h.last g' ?_
    rw [List.getLast?_append, List.getLast?_append, hdrop] at hg'
    rw [← List.take_append_drop k.token gs, List.getLast?_append, hdrop]
    rw [List.getLast?_cons] at hg' ⊢
    exact hg'
  · intro j hj
    obtain ⟨hj, hle⟩ := hks j hj
    obtain ⟨hpos', g', hg', hmark'⟩ := h.keys j hj
    refine ⟨hpos', ?_⟩
    rcases Nat.eq_or_lt_of_le hle with heq | hlt'
    · rw [heq, hg] at hg'
      cases hg'
      obtain ⟨i, hi⟩ : ∃ i, (putAt g.first p.upto puts ++ gs.drop k.token).head? = some i :=
        ⟨_, List.head?_eq_some_head (by rw [hdrop]; simp)⟩
      refine ⟨i, ?_, (hfirst hi).symm ▸ hmark'⟩
      rw [heq, List.getElem?_append_right (by rw [List.length_take]; omega), List.length_take,
        Nat.min_eq_left (Nat.le_of_lt hlt), Nat.sub_self, ← List.head?_eq_getElem?]
      exact hi
    · refine ⟨g', ?_, hmark'⟩
      rw [List.getElem?_append_left (by rw [List.length_take]; omega), List.getElem?_take_of_lt hlt']
      exact hg'

/-- A token is read, and what has to be is put before it or before a key. -/
theorem adds {ends : List Token} (h : Placement text gs ts ks n) (hne : ts ≠ [])
    (hskips : Skips text n a) (hends : ∀ u ∈ ends, u = ⟨.blockEnd, (placeAt text a).mark⟩)
    (hnested : ks.Pairwise fun k outer => outer.token ≤ k.token) (hspells : Spells text a t b)
    (hwritten : Written text a t.kind b)
    (hadds : Adds (ts ++ ends) ks (placeAt text a).mark t ts' ks') :
    ∃ gs', Placement text gs' ts' ks' b := by
  have hputs : ∀ u ∈ ends, u.PutAt text a := by
    intro u hu
    rw [hends u hu]
    exact ⟨rfl, TokenKind.noConfusion, Or.inr rfl⟩
  cases hadds with
  | push hks =>
    exact ⟨_, h.read hne hskips hputs hspells hwritten fun k hk => Or.inl (hks.subset hk)⟩
  | @opens start kind _ hopening hks =>
    have hputs' : ∀ u ∈ ends ++ [⟨start, (placeAt text a).mark⟩], u.PutAt text a := by
      intro u hu
      rcases List.mem_append.mp hu with hu | hu
      · exact hputs u hu
      · rw [List.mem_singleton.mp hu]
        exact hopening.putAt
    rw [show ts ++ ends ++ [⟨start, (placeAt text a).mark⟩, ⟨kind, (placeAt text a).mark⟩] =
      ts ++ (ends ++ [⟨start, (placeAt text a).mark⟩]) ++ [⟨kind, (placeAt text a).mark⟩] by simp]
    exact ⟨_, h.read hne hskips hputs' hspells hwritten fun k hk => Or.inl (hks.subset hk)⟩
  | save hnumber hmark hks =>
    refine ⟨_, h.read hne hskips hputs hspells hwritten fun k hk => ?_⟩
    rcases List.mem_cons.mp hk with rfl | hk
    · exact Or.inr ⟨hnumber, hmark⟩
    · exact Or.inl (hks.subset hk)
  | @recognize k r _ starts hk hstarts hks =>
    have hmem : k ∈ ks := hk.subset List.mem_cons_self
    have hinner : ∀ j ∈ ks', j ∈ ks ∧ j.token ≤ k.token := fun j hj =>
      ⟨hk.subset (List.mem_cons_of_mem _ (hks.subset hj)),
        (List.pairwise_cons.mp (hnested.sublist hk)).1 j (hks.subset hj)⟩
    have hcounted : k.token ≤ ts.length := by
      obtain ⟨-, g, hg, -⟩ := h.keys k hmem
      exact h.length_eq ▸ Nat.le_of_lt (List.getElem?_eq_some_iff.mp hg).1
    have hkey (c : Nat) (hc : k.mark = (placeAt text c).mark) :
        ∀ u ∈ starts ++ [⟨.key, k.mark⟩], u.PutAt text c := by
      intro u hu
      rcases List.mem_append.mp hu with hu | hu
      · rcases hstarts with rfl | rfl
        · cases hu
        · rw [List.mem_singleton.mp hu]
          exact ⟨rfl, TokenKind.noConfusion, Or.inl rfl⟩
      · rw [List.mem_singleton.mp hu]
        exact ⟨rfl, TokenKind.noConfusion, Or.inr hc⟩
    obtain ⟨gs', h'⟩ := h.insert hmem hkey hinner
    rw [List.take_append_of_le_length hcounted, List.drop_append_of_le_length hcounted]
    rw [show ts.take k.token ++ (starts ++ ⟨.key, k.mark⟩ :: (ts.drop k.token ++ ends)) =
      ts.take k.token ++ (starts ++ [⟨.key, k.mark⟩] ++ ts.drop k.token) ++ ends by simp]
    exact ⟨_, h'.read (by simp) hskips hputs hspells hwritten fun k hk => Or.inl hk⟩

variable {rs : List Reading} {s s' : Scanner}

/-- The stream ends where the text does. -/
theorem ends (h : Placement text gs s.queue ks n) (hskips : Skips text n a)
    (hend : isEnd (charAt text a) = true) (hstop : s.Ends text a s') :
    ∃ gs', Placed text gs' s'.queue := by
  obtain ⟨ends, hqueue, hends⟩ := hstop.queue
  refine ⟨gs ++ putAt a n (ends ++ [⟨.streamEnd, s'.mark⟩]), ?_, fun g hg => ?_,
    h.isChain_append hskips (isChain_putAt hskips) fun g hg => ?_⟩
  · rw [List.map_append, map_putAt, h.tokens, hqueue, List.append_assoc]
  · rcases List.mem_append.mp hg with hg | hg
    · exact h.fits g hg
    obtain ⟨u, hu, rfl⟩ := List.mem_map.mp hg
    rcases List.mem_append.mp hu with hu | hu
    · obtain ⟨hkind, hindex, hline⟩ := hends u hu
      exact .close (Or.inl hkind) hskips.le hend hindex hline
    · rw [List.mem_singleton.mp hu]
      refine .close (Or.inr rfl) hskips.le hend hstop.index ?_
      rcases hstop.line with hline | ⟨hline, -⟩
      · exact hline ▸ Nat.le_succ _
      · exact Nat.le_of_eq hline.symm
  · obtain ⟨-, hfirst, hupto⟩ := forall_mem_putAt hg
    exact ⟨hfirst, fun _ => hupto⟩

theorem fetch (h : Placement text gs s.queue s.openKeys n) (hne : s.queue ≠ [])
    (hlive : s.Live text rs n) (hs : s.fetch .document = .ok s') :
    ∃ gs', Placed text gs' s'.queue ∧
      (Placement text gs' s'.queue s'.openKeys s'.mark.index ∨
        ∃ m, s'.queue.getLast? = some ⟨.streamEnd, m⟩) := by
  obtain ⟨a, hskips, ⟨-, t, b, hsteps⟩ | ⟨hend, hstop⟩⟩ :=
    Scanner.fetch_steps hlive.started hlive.here hlive.size hlive.taken hlive.counted hs
  · obtain ⟨ends, hends, hadds⟩ := hsteps.adds
    obtain ⟨gs', h'⟩ := h.adds hne hskips hends (hlive.inOrder.tokens.nested.imp And.left)
      hsteps.spells hsteps.written hadds
    refine ⟨gs', h'.toPlaced, Or.inl ?_⟩
    rwa [Scanner.mark, hsteps.here, placeAt_index]
  · obtain ⟨gs', h'⟩ := h.ends hskips hend hstop
    obtain ⟨ends, hqueue, -⟩ := hstop.queue
    exact ⟨gs', h', Or.inr ⟨s'.mark, by rw [hqueue, List.getLast?_concat]⟩⟩

theorem reads (hreads : s.Reads ts) (hlive : s.Live text rs n) (hne : s.queue ≠ [])
    (h : Placement text gs s.queue s.openKeys n) : ∃ gs', Placed text gs' ts := by
  induction hreads generalizing n rs gs with
  | ended hqueue _ _ => exact ⟨gs, hqueue ▸ h.toPlaced⟩
  | step _ hf hrest ih =>
    obtain ⟨gs', hplaced, hnext⟩ := h.fetch hne hlive hf
    obtain ⟨t, hlast, ⟨hopen, -, -, hlive'⟩ | ⟨hkind, -⟩⟩ := hlive.fetch hf
    · have h' := hnext.resolve_right fun ⟨m, hm⟩ => hopen (by rw [Option.mem_unique hlast hm])
      exact ih hlive' (List.ne_nil_of_mem (List.mem_of_mem_getLast? hlast)) h'
    · cases hrest with
      | ended hqueue _ _ => exact ⟨gs', hqueue ▸ hplaced⟩
      | step hopen _ _ => exact absurd hkind (hopen t (List.mem_of_mem_getLast? hlast))

end Placement

/-- In a text without a fault, every token has its place. -/
theorem scan_placed {text : List Char} (herror : (Scan.ofList .document text).error = none) :
    ∃ gs, Placed text gs ((Scan.ofList .document text).tokens.map (·.token)) := by
  obtain ⟨s, hf, hlast, hlive⟩ := Scanner.Live.ofList text
  cases scan_iff_reads.mpr ⟨herror, rfl⟩ with
  | ended hqueue hend _ =>
    obtain ⟨pre, m, hts⟩ := hend
    rw [← hqueue] at hts
    exact absurd (congrArg List.length hts) (by simp [Scanner.ofList])
  | step _ hf' hrest =>
    rw [hf'] at hf
    cases hf
    cases hf'
    refine Placement.reads hrest hlive (List.cons_ne_nil _ _)
      (?_ : Placement text [⟨⟨.streamStart, ⟨0, 1, 0⟩⟩, 0, 0⟩] _ _ _)
    refine ⟨⟨rfl, fun g hg => ?_, List.isChain_singleton _⟩, fun g hg => ?_, fun _ hk => nomatch hk⟩
    · rw [List.mem_singleton.mp hg]
      exact .start
    · cases hg
      exact ⟨rfl, fun hput => hput.1 rfl⟩

end Blueprint.Yaml
