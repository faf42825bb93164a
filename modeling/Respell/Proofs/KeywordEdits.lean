/-
The edits of the keyword rule, exactly. `Recorded src e`: the edit `e` spells a live word that may begin a word and is
not an `agar` that the live `warna` before it took along. `keyword_edits_exact`: the rule records these edits, in
increasing order, and no others; they cover live bytes only; and every live keyword is covered.

The rule's sweep skips over the words it has looked at, and over whitespace between two joined words. The invariant
`Ready` says why that is no loss: the scanner is where a plain walk would be, it does not stand inside a word, and no
`agar` of a joined pair lies ahead whose `warna` lies behind. `ready_skip` is the step, `mem_sweep_iff` the run.
-/
import Respell.Proofs.Agreement
import Respell.Proofs.Spelling
import Respell.Proofs.Sweeps

namespace Respell.Keyword

open Vocabulary

/-! ## What is to be recorded -/

/-- an `agar` that is joined to the live `warna` before it -/
def Swallowed (src : Bytes) (i j : Nat) : Prop :=
  src.extract i j = ifWord ∧ ∃ a b, LiveWord src a b ∧ src.extract a b = elseWord ∧ Gap src b i

/-- the edit of a live word that is spelled anew -/
def Recorded (src : Bytes) (e : Edit) : Prop :=
  ∃ i j last host, LiveWord src i j ∧ src[i]?.any opensWord = true ∧ ¬ Swallowed src i j ∧
    Spelled src i j last host ∧ e = ⟨.keyword, i, last, host⟩

/-- what a spelling replaces: the word, or two words with the whitespace between them -/
theorem Spelled.range {src : Bytes} {i j last : Nat} {host : String} (h : Spelled src i j last host) :
    last = j ∨ (src.extract i j = elseWord ∧ JoinsIf src j last) := by
  cases h with
  | elseIf hw hl => exact .inr ⟨hw, hl⟩
  | _ => exact .inl rfl

/-- the replaced text ends with a word and holds nothing but words and whitespace -/
theorem Spelled.passive {src : Bytes} {i j last : Nat} {host : String} (hw : IsWord src i j)
    (h : Spelled src i j last host) :
    j ≤ last ∧ src[last]?.any inWord = false ∧ ∀ k, i ≤ k → k < last → src[k]?.any isPassive = true := by
  rcases h.range with rfl | ⟨-, n, hg, hn, -⟩
  · exact ⟨Nat.le_refl _, hw.after, fun k h1 h2 => isPassive_of_inWord (hw.inside k h1 h2)⟩
  · refine ⟨Nat.le_trans hg.le (Nat.le_of_lt hn.lt), hn.after, ?_⟩
    intro k h1 h2
    by_cases hk : k < j
    · exact isPassive_of_inWord (hw.inside k h1 hk)
    · by_cases hk' : k < n
      · exact isPassive_of_isSpace (hg.spaces k (by omega) hk')
      · exact isPassive_of_inWord (hn.inside k (by omega) h2)

theorem Spelled.le_size {src : Bytes} {i j last : Nat} {host : String} (hw : IsWord src i j)
    (h : Spelled src i j last host) : last ≤ src.size := by
  rcases h.range with rfl | ⟨-, n, -, hn, -⟩
  · exact hw.le_size
  · exact hn.le_size

/-! ## The sweep -/

/-- the scanner of the rule's sweep, between two stops -/
structure Ready (src : Bytes) (s : Scanner) : Prop where
  synced : Synced src s
  /-- the position is not inside a word -/
  boundary : ∀ k, k + 1 = s.pos → src[k]?.any inWord = true → src[s.pos]?.any inWord = false
  /-- a `warna` that lies behind has its `agar` behind -/
  passed : ∀ a b n m, LiveWord src a b → src.extract a b = elseWord → Gap src b n → IsWord src n m →
    src.extract n m = ifWord → a < s.pos → n < s.pos

theorem ready_start (src : Bytes) : Ready src .start where
  synced := synced_start src
  boundary k hk := by cases hk
  passed a b n m _ _ _ _ _ ha := by cases ha

section stop

variable {src : Bytes} {s t : Scanner} {i : Nat}

/-- no live word begins between the scanner and its next stop -/
theorem Ready.stop_le (h : Ready src s) (hn : s.nextLive src = (some i, t)) {a b : Nat} (hw : LiveWord src a b)
    (ha : s.pos ≤ a) : i ≤ a := by
  obtain ⟨-, -, -, hnone⟩ := synced_nextLive h.synced hn
  by_contra hlt
  exact live_iff.1 hw.live (hnone a ha (by omega))

/-- a stop at a word byte is the beginning of a live word -/
theorem Ready.liveWord (h : Ready src s) (hn : s.nextLive src = (some i, t)) (hi : src[i]?.any inWord = true) :
    LiveWord src i (endOfWord src i) := by
  obtain ⟨-, -, hlive, hnone⟩ := synced_nextLive h.synced hn
  have hle := (Scanner.nextLive_some hn).1
  have hl : liveAt src i ≠ none := by simp [hlive]
  refine ⟨isWord_endOfWord hi ?_, live_iff.2 hl⟩
  intro k hk
  by_contra hc
  have hk' : src[k]?.any inWord = true := by simpa using hc
  by_cases hs : s.pos ≤ k
  · -- the byte before would have been a stop itself
    subst hk
    exact live_before hl hk' (hnone k hs (Nat.lt_succ_self k))
  · obtain rfl : s.pos = i := by omega
    rw [h.boundary k hk hk'] at hi
    cases hi

/-- the `agar` of a joined pair is never a stop -/
theorem Ready.not_swallowed (h : Ready src s) (hn : s.nextLive src = (some i, t)) {j : Nat} (hw : IsWord src i j) :
    ¬ Swallowed src i j := by
  rintro ⟨hif, a, b, hab, helse, hg⟩
  have hle := (Scanner.nextLive_some hn).1
  have hai : a < i := Nat.lt_of_lt_of_le hab.lt hg.le
  by_cases hs : s.pos ≤ a
  · exact absurd (h.stop_le hn hab hs) (by omega)
  · have := h.passed a b i j hab helse hg hw hif (by omega)
    omega

/-- **One stop.** The scanner may skip from stop `i` to offset `q` if only words and whitespace lie between, if it
does not end inside a word, and if the only live words passed over are an `agar` each that a `warna` took along. -/
theorem ready_skip (h : Ready src s) (hn : s.nextLive src = (some i, t)) {q : Nat} (hiq : i < q) (hq : q ≤ src.size)
    (hp : ∀ k, i < k → k < q → src[k]?.any isPassive = true)
    (hb : ∀ k, k + 1 = q → src[k]?.any inWord = true → src[q]?.any inWord = false)
    (hw : ∀ a b, LiveWord src a b → i < a → a < q → Swallowed src a b)
    (hj : ∀ b n m, LiveWord src i b → src.extract i b = elseWord → Gap src b n → IsWord src n m →
      src.extract n m = ifWord → n < q) :
    Ready src (t.skipTo src q) ∧ (t.skipTo src q).pos = q := by
  obtain ⟨ht, htpos, hlive, -⟩ := synced_nextLive h.synced hn
  have hle := (Scanner.nextLive_some hn).1
  obtain ⟨hs, hpos⟩ := synced_skipTo ht (liveAt_some hlive).2.2 (by omega) hq fun k h1 h2 => hp k (by omega) h2
  refine ⟨⟨hs, by rw [hpos]; exact hb, ?_⟩, hpos⟩
  rw [hpos]
  intro a b n m hab helse hg hnm hif ha
  by_cases has : a < s.pos
  · have := h.passed a b n m hab helse hg hnm hif has
    omega
  · rcases Nat.eq_or_lt_of_le (h.stop_le hn hab (by omega)) with rfl | hia
    · exact hj b n m hab helse hg hnm hif
    · have := (hw a b hab hia ha).1
      rw [helse] at this
      exact absurd this (by decide)

end stop

/-! ## What the rule does at a stop -/

theorem rule_of_not_inWord {src : Bytes} {r : Region} {i : Nat} {b : UInt8} (h : inWord b = false) :
    rule src r i b = ⟨[], i⟩ := by
  simp [rule, h]

/-- at a word, the rule records its spelling and reads on behind it, or reads to the end of the word -/
theorem rule_word {src : Bytes} {r : Region} {i j : Nat} {b : UInt8} (hw : IsWord src i j) (hb : src[i]? = some b) :
    (∃ last host, opensWord b = true ∧ Spelled src i j last host ∧
      rule src r i b = ⟨[⟨.keyword, i, last, host⟩], last⟩) ∨
      ((opensWord b = true → ∀ last host, ¬ Spelled src i j last host) ∧ rule src r i b = ⟨[], j⟩) := by
  have hin : inWord b = true := by simpa [hb] using hw.first
  simp only [rule, hin, if_true, hw.endOfWord_eq]
  by_cases ho : opensWord b = true
  · simp only [ho, if_true, true_and, forall_const]
    cases hs : spelling? src i j with
    | some found =>
      obtain ⟨last, host⟩ := found
      exact .inl ⟨last, host, (spelling?_eq_some_iff hw.after).1 hs, rfl⟩
    | none =>
      refine .inr ⟨?_, rfl⟩
      intro last host h
      rw [(spelling?_eq_some_iff hw.after).2 h] at hs
      cases hs
  · simp [ho]

/-- the edits at the beginning of a live word are those to be recorded there -/
theorem mem_rule_iff {src : Bytes} {r : Region} {i j : Nat} {b : UInt8} (hw : LiveWord src i j)
    (hs : ¬ Swallowed src i j) (hb : src[i]? = some b) (e : Edit) :
    e ∈ (rule src r i b).edits ↔ Recorded src e ∧ e.start = i := by
  rcases rule_word (r := r) hw.toIsWord hb with ⟨last, host, ho, hsp, heq⟩ | ⟨hno, heq⟩
  · rw [heq, List.mem_singleton]
    constructor
    · rintro rfl
      exact ⟨⟨i, j, last, host, hw, by simpa [hb] using ho, hs, hsp, rfl⟩, rfl⟩
    · rintro ⟨⟨i', j', last', host', hw', -, -, hsp', rfl⟩, rfl⟩
      obtain rfl := hw.stop_unique hw'.toIsWord
      obtain ⟨rfl, rfl⟩ := hsp.unique hw.after hsp'
      rfl
  · rw [heq]
    constructor
    · intro he
      cases he
    · rintro ⟨⟨i', j', last', host', hw', ho', -, hsp', rfl⟩, rfl⟩
      obtain rfl := hw.stop_unique hw'.toIsWord
      exact absurd hsp' (hno (by simpa [hb] using ho') last' host')

theorem swallowed_of_spelled {src : Bytes} {i j last : Nat} {host : String} (hw : LiveWord src i j)
    (h : Spelled src i j last host) {a b : Nat} (hab : LiveWord src a b) (h1 : i < a) (h2 : a < last) :
    Swallowed src a b := by
  have hja := hw.le_start hab.toIsWord h1
  rcases h.range with rfl | ⟨helse, n, hg, hn, hif⟩
  · omega
  · -- behind `warna` and its gap, only `agar` is left
    have hna := hg.le_word hab.toIsWord hja
    obtain ⟨rfl, rfl⟩ := hn.unique hab.toIsWord hna h2 (Nat.le_refl a) hab.lt
    exact ⟨hif, i, j, hw, helse, hg⟩

theorem spelled_of_joined {src : Bytes} {i j n m : Nat} (helse : src.extract i j = elseWord) (hg : Gap src j n)
    (hnm : IsWord src n m) (hif : src.extract n m = ifWord) : Spelled src i j m "else if" :=
  .elseIf helse ⟨n, hg, hnm, hif⟩

section skips

variable {src : Bytes} {s t : Scanner} {i j : Nat}

/-- a word that is spelled anew may be skipped, with what its spelling takes along -/
theorem ready_spelled (h : Ready src s) (hn : s.nextLive src = (some i, t)) {last : Nat} {host : String}
    (hw : LiveWord src i j) (hsp : Spelled src i j last host) :
    Ready src (t.skipTo src last) ∧ (t.skipTo src last).pos = last := by
  obtain ⟨hle, hafter, hp⟩ := hsp.passive hw.toIsWord
  have hilast : i < last := Nat.lt_of_lt_of_le hw.lt hle
  refine ready_skip h hn hilast (hsp.le_size hw.toIsWord) (fun k h1 h2 => hp k (Nat.le_of_lt h1) h2)
    (fun _ _ _ => hafter) (fun a c hac => swallowed_of_spelled hw hsp hac) ?_
  intro j' n m hj' helse hg hnm hif
  obtain rfl := hw.stop_unique hj'.toIsWord
  obtain ⟨rfl, -⟩ := hsp.unique hw.after (spelled_of_joined helse hg hnm hif)
  exact hnm.lt

theorem swallowed_inside (hw : LiveWord src i j) : ∀ a c, LiveWord src a c → i < a → a < j → Swallowed src a c := by
  intro a c hac h1 h2
  exact absurd (hw.le_start hac.toIsWord h1) (Nat.not_le.2 h2)

theorem ready_unspelled (h : Ready src s) (hn : s.nextLive src = (some i, t)) (hw : LiveWord src i j)
    (hno : src[i]?.any opensWord = true → ∀ last host, ¬ Spelled src i j last host) :
    Ready src (t.skipTo src j) ∧ (t.skipTo src j).pos = j := by
  refine ready_skip h hn hw.lt hw.le_size (fun k h1 h2 => isPassive_of_inWord (hw.inside k (Nat.le_of_lt h1) h2))
    (fun _ _ _ => hw.after) (swallowed_inside hw) ?_
  intro j' n m hj' helse hg hnm hif
  -- `warna` begins with a letter, so the rule would have joined it
  obtain rfl := hw.stop_unique hj'.toIsWord
  have ho : src[i]?.any opensWord = true := by
    rw [hw.getElem?_start helse]
    decide
  exact absurd (spelled_of_joined helse hg hnm hif) (hno ho m _)

theorem ready_other (h : Ready src s) (hn : s.nextLive src = (some i, t)) (hbyte : src[i]?.any inWord = false) :
    Ready src (t.skipTo src (i + 1)) ∧ (t.skipTo src (i + 1)).pos = i + 1 := by
  have hsize := (Scanner.nextLive_some hn).2.1
  refine ready_skip h hn (Nat.lt_succ_self i) hsize (fun k h1 h2 => by omega) ?_ (fun a c _ h1 h2 => by omega) ?_
  · intro k hk hkw
    obtain rfl : k = i := by omega
    rw [hbyte] at hkw
    cases hkw
  · intro j' n m hj' _ _ _ _
    have := hj'.first
    rw [hbyte] at this
    cases this

/-- **One stop of the rule.** What the rule reads may be skipped, and the live words in it are `i` and swallowed
ones. -/
theorem ready_rule {b : UInt8} (h : Ready src s) (hn : s.nextLive src = (some i, t)) (hb : src[i]? = some b) :
    ∃ q, i < q ∧ (∀ a c, LiveWord src a c → i < a → a < q → Swallowed src a c) ∧
      Ready src (t.skipTo src (rule src t.region i b).readTo) ∧
      (t.skipTo src (rule src t.region i b).readTo).pos = q := by
  by_cases hin : inWord b = true
  · have hw := h.liveWord hn (by simp [hb, hin])
    rcases rule_word (r := t.region) hw.toIsWord hb with ⟨last, host, ho, hsp, heq⟩ | ⟨hno, heq⟩
    · rw [heq]
      have hilast := Nat.lt_of_lt_of_le hw.lt (hsp.passive hw.toIsWord).1
      exact ⟨last, hilast, fun a c hac => swallowed_of_spelled hw hsp hac, ready_spelled h hn hw hsp⟩
    · rw [heq]
      exact ⟨_, hw.lt, swallowed_inside hw, ready_unspelled h hn hw (by simpa [hb] using hno)⟩
  · have hskip : t.skipTo src (rule src t.region i b).readTo = t.skipTo src (i + 1) := by
      have ht := (synced_nextLive h.synced hn).2.1
      rw [rule_of_not_inWord (by simpa using hin)]
      simp only [Scanner.skipTo, ht, Scanner.mk.injEq, and_self, and_true]
      omega
    rw [hskip]
    exact ⟨i + 1, Nat.lt_succ_self i, fun a c _ h1 h2 => by omega, ready_other h hn (by simpa [hb] using hin)⟩

end skips

/-- **The sweep.** From a scanner that is ready, the rule records what is to be recorded from there on. -/
theorem mem_sweep_iff {src : Bytes} {s : Scanner} (h : Ready src s) (e : Edit) :
    e ∈ sweep src (rule src) s ↔ Recorded src e ∧ s.pos ≤ e.start := by
  fun_induction sweep src (rule src) s with
  | case1 s t hn =>
    obtain ⟨-, -, hnone⟩ := synced_nextLive_none h.synced hn
    constructor
    · intro he
      cases he
    · rintro ⟨⟨i, j, last, host, hw, -, -, -, rfl⟩, hle⟩
      exact absurd (hnone i hle) (live_iff.1 hw.live)
  | case2 s i t hn found ih =>
    obtain ⟨hle, hsize, -⟩ := Scanner.nextLive_some hn
    have hb : src[i]? = some src[i] := by simp [hsize]
    have hfound : found = rule src t.region i src[i] := by simp [found, hb]
    rw [List.mem_append, hfound]
    rw [hfound] at ih
    obtain ⟨q, hiq, hsw, hready, hq⟩ := ready_rule h hn hb
    rw [ih hready, hq]
    constructor
    · rintro (he | ⟨hrec, hqe⟩)
      · by_cases hin : inWord src[i] = true
        · have hw := h.liveWord hn (by simp [hb, hin])
          obtain ⟨hrec, rfl⟩ := (mem_rule_iff hw (h.not_swallowed hn hw.toIsWord) hb e).1 he
          exact ⟨hrec, hle⟩
        · rw [rule_of_not_inWord (by simpa using hin)] at he
          cases he
      · exact ⟨hrec, by omega⟩
    · rintro ⟨hrec, hse⟩
      obtain ⟨a, c, last, host, hw, ho, hns, hsp, rfl⟩ := id hrec
      have hia := h.stop_le hn hw hse
      -- a word that the rule read past is swallowed by a joined spelling, which `Recorded` rules out
      rcases Nat.eq_or_lt_of_le hia with rfl | hlt
      · exact .inl ((mem_rule_iff hw hns hb _).2 ⟨hrec, rfl⟩)
      · refine .inr ⟨hrec, ?_⟩
        by_contra hge
        exact hns (hsw a c hw hlt (Nat.lt_of_not_le hge))

theorem mem_edits_iff {src : Bytes} {e : Edit} : e ∈ edits src ↔ Recorded src e := by
  rw [edits, mem_sweep_iff (ready_start src)]
  exact and_iff_left (Nat.zero_le _)

/-! ## Order and coverage -/

/-- of two recorded edits, the one that begins first ends before the other begins -/
theorem Recorded.stop_le {src : Bytes} {e e' : Edit} (h : Recorded src e) (h' : Recorded src e')
    (hlt : e.start < e'.start) : e.stop ≤ e'.start := by
  obtain ⟨i, j, last, host, hw, -, -, hsp, rfl⟩ := h
  obtain ⟨i', j', last', host', hw', -, hns, -, rfl⟩ := h'
  by_contra hge
  exact hns (swallowed_of_spelled hw hsp hw' hlt (Nat.lt_of_not_le hge))

theorem edits_pairwise (src : Bytes) : (edits src).Pairwise fun a b => a.start < b.start := by
  have hstart : ∀ r i b, src[i]? = some b → ∀ e ∈ (rule src r i b).edits, e.start = i := by
    intro r i b _ e he
    unfold rule at he
    split at he
    · dsimp only at he
      split at he
      · rw [List.mem_singleton.1 he]
      · cases he
    · cases he
  refine sweep_pairwise ?_ ?_ _
  · intro r i b _
    unfold rule
    split
    · dsimp only
      split <;> simp
    · exact .nil
  · intro r i b r' i' b' hb hb' hlt _ e he e' he'
    rw [hstart r i b hb e he, hstart r' i' b' hb' e' he']
    exact hlt

theorem edits_apart (src : Bytes) : (edits src).Pairwise fun a b => a.start < b.start ∧ a.stop ≤ b.start := by
  refine (edits_pairwise src).imp_of_mem fun he he' hlt => ⟨hlt, ?_⟩
  exact (mem_edits_iff.1 he).stop_le (mem_edits_iff.1 he') hlt

theorem Recorded.live {src : Bytes} {e : Edit} (h : Recorded src e) {k : Nat} (h1 : e.start ≤ k) (h2 : k < e.stop) :
    Live src k := by
  obtain ⟨i, j, last, host, hw, -, -, hsp, rfl⟩ := h
  obtain ⟨r, hr⟩ := Option.ne_none_iff_exists'.1 (live_iff.1 hw.live)
  obtain ⟨hrest, hcode, -⟩ := liveAt_some hr
  obtain ⟨hle, -, hp⟩ := hsp.passive hw.toIsWord
  have hlive := (cursorAt_passive hrest hcode (Nat.le_trans (Nat.le_of_lt hw.lt) hle) hp).2 k h1 h2
  rw [live_iff, hlive]
  simp

theorem keywords_openWord : ∀ entry ∈ keywords, (utf8 entry.1)[0]?.any opensWord = true := by decide +kernel

/-- a keyword is spelled anew, by its own rule or by an earlier one -/
theorem exists_spelled {src : Bytes} {i j : Nat} {host : String} (h : Spells keywords (src.extract i j) host) :
    ∃ last host', Spelled src i j last host' := by
  by_cases h1 : IsElseIf src i j
  · obtain ⟨last, hl⟩ := h1.2
    exact ⟨last, _, .elseIf h1.1 hl⟩
  · by_cases h2 : src.extract i j = asyncWord
    · by_cases hf : NamesFunction src j
      · exact ⟨j, _, .asyncFunction h1 h2 hf⟩
      · exact ⟨j, _, .async h1 h2 hf⟩
    · by_cases h3 : IsCallee src i j
      · obtain ⟨callee, hc⟩ := h3.1
        exact ⟨j, callee, .callee h1 h2 h3 hc⟩
      · exact ⟨j, host, .keyword h1 h2 h3 h⟩

/-- a live keyword is covered: by its own edit, or by that of the `warna` which took it along -/
theorem keyword_covered {src : Bytes} {i j : Nat} {host : String} (hw : LiveWord src i j)
    (h : Spells keywords (src.extract i j) host) : ∃ e, Recorded src e ∧ e.start ≤ i ∧ j ≤ e.stop := by
  by_cases hs : Swallowed src i j
  · obtain ⟨hif, a, b, hab, helse, hg⟩ := hs
    have ho : src[a]?.any opensWord = true := by
      rw [hab.getElem?_start helse]
      decide
    have hns : ¬ Swallowed src a b := fun hs => absurd (helse.symm.trans hs.1) (by decide)
    refine ⟨_, ⟨a, b, j, _, hab, ho, hns, spelled_of_joined helse hg hw.toIsWord hif, rfl⟩, ?_, Nat.le_refl j⟩
    exact Nat.le_trans (Nat.le_of_lt hab.lt) hg.le
  · obtain ⟨name, hmem, hname⟩ := id h
    obtain ⟨last, host', hsp⟩ := exists_spelled h
    have ho : src[i]?.any opensWord = true := by
      rw [hw.getElem?_start hname.symm]
      exact keywords_openWord _ hmem
    exact ⟨_, ⟨i, j, last, host', hw, ho, hs, hsp, rfl⟩, Nat.le_refl i, (hsp.passive hw.toIsWord).1⟩

/-- **The keyword rule, exactly.** In every text, the rule's edits are, in increasing order, one for each live word
that may begin a word, was not taken along by the `warna` before it, and is spelled anew, by the first rule that
applies. They cover live bytes only, and no live keyword is left uncovered. -/
theorem keyword_edits_exact (src : Bytes) :
    (edits src).Pairwise (fun a b => a.start < b.start ∧ a.stop ≤ b.start) ∧
      (∀ e, e ∈ edits src ↔ ∃ i j last host, LiveWord src i j ∧ src[i]?.any opensWord = true ∧ ¬ Swallowed src i j ∧
        Spelled src i j last host ∧ e = ⟨.keyword, i, last, host⟩) ∧
      (∀ e ∈ edits src, ∀ k, e.start ≤ k → k < e.stop → Live src k) ∧
      ∀ i j host, LiveWord src i j → Spells keywords (src.extract i j) host →
        ∃ e ∈ edits src, e.start ≤ i ∧ j ≤ e.stop := by
  refine ⟨edits_apart src, fun e => mem_edits_iff, fun e he k => (mem_edits_iff.1 he).live, ?_⟩
  intro i j host hw h
  obtain ⟨e, he, h1, h2⟩ := keyword_covered hw h
  exact ⟨e, mem_edits_iff.2 he, h1, h2⟩

end Respell.Keyword
