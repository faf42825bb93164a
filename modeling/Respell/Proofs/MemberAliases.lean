/-
Members by their table names. A word is `Aliased` if it stands directly behind a live dot with no dot beside it and the
table of members has it. Such a word is live as a whole, since neither a dot nor a word changes the region
(`Aliased.live`).

Main result, `aliases_exact`: the member rule replaces the aliased words, each once and with its host name, and touches
nothing else, and the host name is found in the output where the word stood.
-/
import Respell.Proofs.Callees
import Respell.Proofs.HostWords
import Respell.Proofs.MemberEdits
import Respell.Proofs.OutputOffsets
import Respell.Proofs.OutputWords

namespace Respell

open Vocabulary

/-- the word from `i` to `j` is the member that the table spells `host` -/
structure Aliased (src : Bytes) (i j : Nat) (host : String) : Prop where
  dot : ∃ k, k + 1 = i ∧ Live src k ∧ src[k]? = some (ascii '.') ∧ ∀ l, l + 1 = k → src[l]? ≠ some (ascii '.')
  next : src[i]? ≠ some (ascii '.')
  opens : src[i]?.any opensWord = true
  word : IsWord src i j
  spelled : Keyword.Spells members (src.extract i j) host

namespace Aliased

variable {src : Bytes} {i j : Nat} {host : String}

theorem of_memberDot {k : Nat} (hlive : Live src k) (hdot : isMemberDot src k = true) (hw : IsWord src (k + 1) j)
    (hs : Keyword.Spells members (src.extract (k + 1) j) host) : Aliased src (k + 1) j host := by
  obtain ⟨hat, hbefore, hafter⟩ := isMemberDot_iff.1 hdot
  obtain ⟨name, hmem, hname⟩ := id hs
  have hopen : src[k + 1]?.any opensWord = true := by
    rw [hw.getElem?_start hname.symm]
    exact Member.opensWord_of_member _ hmem
  exact ⟨⟨k, rfl, hlive, hat, hbefore⟩, hafter, hopen, hw, hs⟩

/-- **The member rule, word by word.** -/
theorem mem_edits_iff {e : Edit} :
    e ∈ Member.edits src ↔ e.rule = .member ∧ Aliased src e.start e.stop e.text := by
  rw [Member.mem_edits_iff]
  constructor
  · intro h
    obtain ⟨k, j, host, hlive, hdot, hw, hs, rfl⟩ := h
    exact ⟨rfl, .of_memberDot hlive hdot hw hs⟩
  · intro h
    obtain ⟨hrule, h⟩ := h
    obtain ⟨k, hk, hlive, hat, hbefore⟩ := h.dot
    obtain ⟨rule, start, stop, text⟩ := e
    obtain rfl : k + 1 = start := hk
    obtain rfl : rule = .member := hrule
    exact ⟨k, stop, text, hlive, isMemberDot_iff.2 ⟨hat, hbefore, h.next⟩, h.word, h.spelled, rfl⟩

theorem live (h : Aliased src i j host) {k : Nat} (h1 : i ≤ k + 1) (h2 : k < j) : Live src k := by
  obtain ⟨n, rfl, hlive, hdot, -⟩ := h.dot
  rcases Nat.eq_or_lt_of_le (Nat.le_of_succ_le_succ h1) with rfl | hlt
  · exact hlive
  · obtain ⟨r, hr⟩ := Option.ne_none_iff_exists'.1 (live_iff.1 hlive)
    obtain ⟨hrest, hcode, -⟩ := liveAt_some hr
    -- a dot in live code leaves the cursor as it is, and so do the bytes of a word
    have hnext : cursorAt src (n + 1) = cursorAt src n := by
      rw [cursorAt_succ hdot, Cursor.feed_inert hrest (by decide)]
    have hword := cursorAt_passive (i := n + 1) (j := j) (by rw [hnext, hrest]) (by rw [hnext, hcode])
      (Nat.le_of_lt h.word.lt) fun k h1 h2 => isPassive_of_inWord (h.word.inside k h1 h2)
    rw [live_iff, hword.2 k hlt h2]
    exact Option.some_ne_none _

/-- an aliased word lies apart from every word that is not aliased -/
theorem disjoint_word {a b : Nat} (h : Aliased src i j host) (hw : IsWord src a b)
    (hne : ∀ host, ¬ Aliased src a b host) : j ≤ a ∨ b ≤ i := by
  rcases Nat.lt_trichotomy i a with hlt | rfl | hgt
  · exact .inl (h.word.le_start hw hlt)
  · obtain rfl := hw.stop_unique h.word
    exact absurd h (hne host)
  · exact .inr (hw.le_start h.word hgt)

end Aliased

/-- **Aliased members.** The member rule replaces exactly the words that stand behind a live dot with no dot beside it
and are in the table of members, in order and each once, by their host names. It touches live bytes only, and no other
word. In the output of the whole text, whatever the other rules do, the host name stands where the word stood. -/
theorem aliases_exact (source : String) (options : Options) :
    (Member.edits (utf8 source)).Pairwise Edit.Before ∧
      (∀ e, e ∈ Member.edits (utf8 source) ↔ e.rule = .member ∧ Aliased (utf8 source) e.start e.stop e.text) ∧
      (∀ e ∈ Member.edits (utf8 source), ∀ k, e.start ≤ k + 1 → k < e.stop → Live (utf8 source) k) ∧
      (∀ i j, IsWord (utf8 source) i j → (∀ host, ¬ Aliased (utf8 source) i j host) →
        ∀ e ∈ Member.edits (utf8 source), e.stop ≤ i ∨ j ≤ e.start) ∧
      ∃ out, respell source options = .ok out ∧ ∀ i j host, Aliased (utf8 source) i j host →
        ∃ q, out.alignment.outputOffset i = some q ∧
          out.code.extract q (q + (utf8 host).size) = utf8 host := by
  obtain ⟨trailer, hout⟩ := respell_eq source options
  refine ⟨member_order _, fun e => Aliased.mem_edits_iff, ?_, ?_, _, hout, ?_⟩
  · intro e he k h1 h2
    exact (Aliased.mem_edits_iff.1 he).2.live h1 h2
  · intro i j hw hne e he
    exact (Aliased.mem_edits_iff.1 he).2.disjoint_word hw hne
  · intro i j host h
    have hmem : (⟨.member, i, j, host⟩ : Edit) ∈ orderedEdits (utf8 source) :=
      mem_orderedEdits.2 (.inr (.inr (.inr (Aliased.mem_edits_iff.2 ⟨rfl, h⟩))))
    obtain ⟨q, hput⟩ := exists_putAt hmem h.word.lt
    refine ⟨q, hput.outputOffset h.word.lt, extract_eq fun k hk => ?_⟩
    have hget : (respelled (utf8 source))[q + k]? = (utf8 host)[k]? := hput.get hk
    have hlt : q + k < (respelled (utf8 source)).size := by
      rw [Array.getElem?_eq_getElem hk] at hget
      exact (Array.getElem?_eq_some_iff.1 hget).1
    exact (Array.getElem?_append_left hlt).trans hget

end Respell
