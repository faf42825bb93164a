/-
What the mark of an asynchronous function declares. Behind `async_kaam` may stand the word `kaam`, then a name, then
`(` (`Heading`). The mark is spelled `async function` where exactly one word stands before the `(`, whichever word it
is, and `kaam` is spelled `function` in any case. So the output has one word `function` before the `(` if a name is
given, none if neither a name nor `kaam` is, and two if `kaam` is given without a name.

- `WordsTo`: words in a row up to an offset. `WordsTo.namesFunction_iff`: which rows make a mark spell `function`.
- `mem_functions_iff`: where the words `function` of the output come from.

Main result, `async_functions`: how many words `function` follow `async` before the `(`. `function_doubled` has the text
with two.
-/
import Respell.Proofs.HostWords
import Respell.Proofs.MemberEdits
import Respell.Proofs.OutputOffsets

namespace Respell

open Vocabulary Keyword

/-! ## Words in a row -/

instance (src : Bytes) (i j : Nat) : Decidable (Gap src i j) :=
  decidable_of_iff (i ≤ j ∧ ∀ k < j, i ≤ k → src[k]?.any isSpace = true)
    ⟨fun ⟨h1, h2⟩ => ⟨h1, fun k hik hkj => h2 k hkj hik⟩, fun h => ⟨h.le, fun k hkj hik => h.spaces k hik hkj⟩⟩

/-- after offset `i`, across whitespace, these words one after the other, and then offset `p` -/
inductive WordsTo (src : Bytes) (p : Nat) : Nat → List Span → Prop
  | done {i : Nat} (hg : Gap src i p) : WordsTo src p i []
  | word {i : Nat} {w : Span} {ws : List Span} (hg : Gap src i w.start) (hw : IsWord src w.start w.stop)
    (hrest : WordsTo src p w.stop ws) : WordsTo src p i (w :: ws)

namespace WordsTo

variable {src : Bytes} {i p : Nat} {ws : List Span}

theorem nil_iff : WordsTo src p i [] ↔ Gap src i p := by
  constructor
  · intro h
    cases h with
    | done hg => exact hg
  · exact .done

theorem cons_iff {w : Span} : WordsTo src p i (w :: ws) ↔
    Gap src i w.start ∧ IsWord src w.start w.stop ∧ WordsTo src p w.stop ws := by
  constructor
  · intro h
    cases h with
    | word hg hw hrest => exact ⟨hg, hw, hrest⟩
  · exact fun ⟨hg, hw, hrest⟩ => .word hg hw hrest

instance decidable (src : Bytes) (p : Nat) : ∀ (i : Nat) (ws : List Span), Decidable (WordsTo src p i ws)
  | _, [] => decidable_of_iff' _ nil_iff
  | _, w :: ws =>
    have := decidable src p w.stop ws
    decidable_of_iff' _ cons_iff

theorem le (h : WordsTo src p i ws) : i ≤ p := by
  induction h with
  | done hg => exact hg.le
  | word hg hw _ ih => exact Nat.le_trans hg.le (Nat.le_trans (Nat.le_of_lt hw.lt) ih)

theorem passive (h : WordsTo src p i ws) : ∀ k, i ≤ k → k < p → src[k]?.any isPassive = true := by
  induction h with
  | done hg => exact fun k h1 h2 => isPassive_of_isSpace (hg.spaces k h1 h2)
  | @word i w ws hg hw _ ih =>
    intro k h1 h2
    by_cases hstart : k < w.start
    · exact isPassive_of_isSpace (hg.spaces k h1 hstart)
    · by_cases hstop : k < w.stop
      · exact isPassive_of_inWord (hw.inside k (Nat.le_of_not_lt hstart) hstop)
      · exact ih k (Nat.le_of_not_lt hstop) h2

theorem bounds (h : WordsTo src p i ws) : ∀ w ∈ ws, i ≤ w.start ∧ w.stop ≤ p ∧ IsWord src w.start w.stop := by
  induction h with
  | done => simp
  | @word i v ws hg hv hrest ih =>
    intro w hw
    rcases List.mem_cons.1 hw with rfl | hw
    · exact ⟨hg.le, hrest.le, hv⟩
    · obtain ⟨h1, h2, h3⟩ := ih w hw
      exact ⟨Nat.le_trans hg.le (Nat.le_trans (Nat.le_of_lt hv.lt) h1), h2, h3⟩

theorem mem (h : WordsTo src p i ws) {a b : Nat} (hw : IsWord src a b) (h1 : i ≤ a) (h2 : a < p) : ⟨a, b⟩ ∈ ws := by
  induction h with
  | done hg => exact absurd h2 (Nat.not_lt_of_le (hg.le_word hw h1))
  | @word i v ws hg hv hrest ih =>
    rcases Nat.eq_or_lt_of_le (hg.le_word hw h1) with heq | hlt
    · obtain ⟨start, stop⟩ := v
      obtain rfl : start = a := heq
      obtain rfl : stop = b := hv.stop_unique hw
      exact List.mem_cons_self
    · exact List.mem_cons_of_mem _ (ih (hv.le_start hw hlt))

variable (h : WordsTo src p i ws) (hp : src[p]? = some (ascii '('))
include h hp

/-- `(` follows directly only where the row is empty -/
theorem called_iff : Called src i ↔ ws = [] := by
  constructor
  · intro hcalled
    obtain ⟨n, hg, hn⟩ := hcalled
    cases h with
    | done => rfl
    | @word _ w ws hg' hw _ =>
      have hstart : w.start = n :=
        (hg'.skipSpace_word hw).symm.trans (hg.skipSpace_eq (by rw [hn]; decide))
      have hfirst := hw.first
      rw [hstart, hn] at hfirst
      cases hfirst
  · intro hnil
    subst hnil
    cases h with
    | done hg => exact ⟨p, hg, hp⟩

/-- a word and then `(` follow where the row has one word -/
theorem namesFunction_iff : NamesFunction src i ↔ ∃ w, ws = [w] ∧ src[w.start]?.any opensWord = true := by
  constructor
  · intro hnames
    obtain ⟨n, m, hg, hw, hopen, hcalled⟩ := hnames
    cases h with
    | done hg' =>
      have heq : p = n := (hg'.skipSpace_eq (by rw [hp]; decide)).symm.trans (hg.skipSpace_word hw)
      have hfirst := hw.first
      rw [← heq, hp] at hfirst
      cases hfirst
    | @word _ w ws hg' hv hrest =>
      have hstart : w.start = n := (hg'.skipSpace_word hv).symm.trans (hg.skipSpace_word hw)
      subst hstart
      obtain rfl := hv.stop_unique hw
      rw [(hrest.called_iff hp).1 hcalled]
      exact ⟨w, rfl, hopen⟩
  · intro hone
    obtain ⟨w, rfl, hopen⟩ := hone
    cases h with
    | word hg hw hrest => exact ⟨w.start, w.stop, hg, hw, hopen, (hrest.called_iff hp).2 rfl⟩

end WordsTo

/-! ## Headings -/

/-- the word of the dialect for `function` -/
def functionWord : Bytes := utf8 "kaam"

/-- the host's words that a mark and `functionWord` are spelled with -/
def hostFunction : Bytes := utf8 "function"

def hostAsync : Bytes := utf8 "async"

/-- a word that may be a function's name: no keyword, no mark, and not the host's `function` -/
structure FunctionName (src : Bytes) (w : Span) : Prop where
  opens : src[w.start]?.any opensWord = true
  keyword : ∀ host, ¬ Spells keywords (src.extract w.start w.stop) host
  mark : src.extract w.start w.stop ≠ asyncWord
  host : src.extract w.start w.stop ≠ hostFunction

/-- what stands behind a mark that ends at `j`: the word `kaam` if there is one, a name if there is one, and the `(` at
`p`, all across whitespace -/
structure Heading (src : Bytes) (j : Nat) (kaam name : Option Span) (p : Nat) : Prop where
  words : WordsTo src p j (kaam.toList ++ name.toList)
  kaams : ∀ w ∈ kaam, src.extract w.start w.stop = functionWord
  names : ∀ w ∈ name, FunctionName src w
  paren : src[p]? = some (ascii '(')

instance (src : Bytes) (w : Span) : Decidable (FunctionName src w) :=
  decidable_of_iff
    (src[w.start]?.any opensWord = true ∧ (∀ entry ∈ keywords, utf8 entry.1 ≠ src.extract w.start w.stop) ∧
      src.extract w.start w.stop ≠ asyncWord ∧ src.extract w.start w.stop ≠ hostFunction)
    ⟨fun ⟨h1, h2, h3, h4⟩ => ⟨h1, fun _ ⟨_, hmem, hword⟩ => h2 _ hmem hword, h3, h4⟩,
      fun h => ⟨h.opens, fun entry hmem hword => h.keyword entry.2 ⟨entry.1, hmem, hword⟩, h.mark, h.host⟩⟩

instance (src : Bytes) (j : Nat) (kaam name : Option Span) (p : Nat) : Decidable (Heading src j kaam name p) :=
  decidable_of_iff
    (WordsTo src p j (kaam.toList ++ name.toList) ∧ (∀ w ∈ kaam, src.extract w.start w.stop = functionWord) ∧
      (∀ w ∈ name, FunctionName src w) ∧ src[p]? = some (ascii '('))
    ⟨fun ⟨h1, h2, h3, h4⟩ => ⟨h1, h2, h3, h4⟩, fun ⟨h1, h2, h3, h4⟩ => ⟨h1, h2, h3, h4⟩⟩

/-- how the mark before a heading is spelled -/
def asyncSpelling (kaam name : Option Span) : String := if kaam.isSome = name.isSome then "async" else "async function"

theorem functionWord_keyword : Spells keywords functionWord "function" := ⟨"kaam", by decide, rfl⟩

theorem functionWord_opens : functionWord[0]?.any opensWord = true := by decide

theorem functionWord_apart : functionWord ≠ elseWord ∧ functionWord ≠ asyncWord ∧ functionWord ≠ ifWord ∧
    functionWord ≠ hostFunction ∧ ∀ entry ∈ callees, utf8 entry.1 ≠ functionWord := by
  decide +kernel

section headings

variable {src : Bytes} {i j p : Nat} {kaam name : Option Span} (hw : LiveWord src i j)
  (hmark : src.extract i j = asyncWord) (hh : Heading src j kaam name p)

include hh in
/-- the words of a heading: `kaam`, and a name -/
theorem Heading.word_cases {a b : Nat} (hab : IsWord src a b) (h1 : j ≤ a) (h2 : a < p) :
    ⟨a, b⟩ ∈ kaam ∨ FunctionName src ⟨a, b⟩ := by
  rcases List.mem_append.1 (hh.words.mem hab h1 h2) with h | h
  · exact .inl (Option.mem_toList.1 h)
  · exact .inr (hh.names _ (Option.mem_toList.1 h))

include hh in
/-- a heading names a function, as far as the rule can see, where it has exactly one word -/
theorem Heading.namesFunction_iff : NamesFunction src j ↔ kaam.isSome ≠ name.isSome := by
  rw [hh.words.namesFunction_iff hh.paren]
  cases hk : kaam with
  | none =>
    cases hn : name with
    | none => simp
    | some w => simp [(hh.names w hn).opens]
  | some v =>
    cases hn : name with
    | none =>
      have hv : IsWord src v.start v.stop := (hh.words.bounds v (by simp [hk])).2.2
      have hopen : src[v.start]?.any opensWord = true := by
        rw [hv.getElem?_start (hh.kaams v hk)]
        exact functionWord_opens
      simp [hopen]
    | some w => simp

include hw hmark hh in
theorem Heading.mark_edit : ⟨.keyword, i, j, asyncSpelling kaam name⟩ ∈ orderedEdits src := by
  have hopen : src[i]?.any opensWord = true := by
    rw [hw.getElem?_start hmark]
    decide
  have halone : ¬ Swallowed src i j := fun hs => absurd (hmark.symm.trans hs.1) (by decide)
  have helse : ¬ IsElseIf src i j := fun he => absurd (hmark.symm.trans he.1) (by decide)
  have hspelled : Spelled src i j j (asyncSpelling kaam name) := by
    unfold asyncSpelling
    split
    · next heq => exact .async helse hmark fun hn => hh.namesFunction_iff.1 hn heq
    · next hne => exact .asyncFunction helse hmark (hh.namesFunction_iff.2 hne)
  exact mem_orderedEdits.2 (.inr (.inl (mem_edits_iff.2 ⟨i, j, j, _, hw, hopen, halone, hspelled, rfl⟩)))

include hw hh in
theorem Heading.live {k : Nat} (h1 : j ≤ k) (h2 : k < p) : Live src k := by
  obtain ⟨r, hr⟩ := Option.ne_none_iff_exists'.1 (live_iff.1 hw.live)
  obtain ⟨hrest, hcode, -⟩ := liveAt_some hr
  have hpassive : ∀ m, i ≤ m → m < p → src[m]?.any isPassive = true := by
    intro m h1 h2
    by_cases hm : m < j
    · exact isPassive_of_inWord (hw.inside m h1 hm)
    · exact hh.words.passive m (Nat.le_of_not_lt hm) h2
  have hij := Nat.le_of_lt hw.lt
  have hlive := (cursorAt_passive hrest hcode (Nat.le_trans hij hh.words.le) hpassive).2 k (Nat.le_trans hij h1) h2
  rw [live_iff, hlive]
  simp

include hw hh in
theorem Heading.kaam_edit {w : Span} (hk : w ∈ kaam) :
    IsWord src w.start w.stop ∧ j ≤ w.start ∧ ⟨.keyword, w.start, w.stop, "function"⟩ ∈ orderedEdits src := by
  obtain ⟨h1, h2, hword⟩ := hh.words.bounds w (List.mem_append_left _ (Option.mem_toList.2 hk))
  have htext := hh.kaams w hk
  obtain ⟨hne1, hne2, hne3, -, hne4⟩ := functionWord_apart
  have hlive : LiveWord src w.start w.stop := ⟨hword, hh.live hw h1 (Nat.lt_of_lt_of_le hword.lt h2)⟩
  have hopen : src[w.start]?.any opensWord = true := by
    rw [hword.getElem?_start htext]
    exact functionWord_opens
  have hspelled : Spelled src w.start w.stop w.stop "function" := by
    refine .keyword (fun he => hne1 (htext.symm.trans he.1)) (fun he => hne2 (htext.symm.trans he)) ?_
      (htext ▸ functionWord_keyword)
    intro hcallee
    obtain ⟨⟨host, entry, hmem, hentry⟩, -⟩ := hcallee
    exact hne4 _ hmem (hentry.trans htext)
  refine ⟨hword, h1, mem_orderedEdits.2 (.inr (.inl (mem_edits_iff.2 ⟨_, _, _, _, hlive, hopen, ?_, hspelled, rfl⟩)))⟩
  exact fun hs => hne3 (htext.symm.trans hs.1)

end headings

/-! ## Words `function` of an output -/

/-- where a whole word stands between `i` and `j` -/
def occurrences (code word : Bytes) (i j : Nat) : Finset Nat :=
  {k ∈ Finset.Ico i j | k + word.size ≤ j ∧ IsWord code k (k + word.size) ∧ code.extract k (k + word.size) = word}

theorem mem_occurrences {code word : Bytes} {i j k : Nat} : k ∈ occurrences code word i j ↔
    i ≤ k ∧ k + word.size ≤ j ∧ IsWord code k (k + word.size) ∧ code.extract k (k + word.size) = word := by
  simp only [occurrences, Finset.mem_filter, Finset.mem_Ico]
  constructor
  · intro h
    exact ⟨h.1.1, h.2⟩
  · intro h
    exact ⟨⟨h.1, Nat.lt_of_lt_of_le h.2.2.1.lt h.2.1⟩, h.2⟩

/-- the texts that are put and hold the word `function` -/
theorem hosts_function : ∀ host ∈ hosts, ∀ n < (utf8 host).size, IsWord (utf8 host) n (n + hostFunction.size) →
    (utf8 host).extract n (n + hostFunction.size) = hostFunction →
      (host = "function" ∧ n = 0) ∨ (host = "async function" ∧ n = 6) := by
  decide +kernel

/-- the words that are spelled with `function` in a table: `kaam` alone -/
theorem spelled_function : (∀ entry ∈ keywords, entry.2 ∈ ["function", "async function"] →
      utf8 entry.1 = functionWord ∧ entry.2 = "function") ∧
    ∀ entry ∈ callees ++ members, entry.2 ∉ ["function", "async function"] := by
  decide +kernel

/-- an edit that puts the word `function` replaces `kaam` or a mark -/
theorem function_source {src : Bytes} {e : Edit} (he : e ∈ orderedEdits src)
    (ht : e.text ∈ ["function", "async function"]) :
    ∃ i j, IsWord src i j ∧ ((src.extract i j = functionWord ∧ e = ⟨.keyword, i, j, "function"⟩) ∨
      (src.extract i j = asyncWord ∧ e = ⟨.keyword, i, j, "async function"⟩)) := by
  rcases mem_orderedEdits.1 he with h | h | h | h
  · have himport : ∀ text ∈ ["import", "from", ";", ""], text ∉ ["function", "async function"] := by decide
    exact absurd ht (himport _ (text_of_import h))
  · obtain ⟨i, j, last, host, hw, -, -, hsp, rfl⟩ := mem_edits_iff.1 h
    replace ht : host ∈ ["function", "async function"] := ht
    cases hsp with
    | elseIf => exact absurd ht (by decide)
    | asyncFunction _ hx => exact ⟨i, j, hw.toIsWord, .inr ⟨hx, rfl⟩⟩
    | async => exact absurd ht (by decide)
    | callee _ _ _ hs =>
      obtain ⟨entry, hmem, -⟩ := hs
      exact absurd ht (spelled_function.2 _ (List.mem_append_left _ hmem))
    | keyword _ _ _ hs =>
      obtain ⟨entry, hmem, hentry⟩ := hs
      obtain ⟨hword, rfl⟩ := spelled_function.1 _ hmem ht
      exact ⟨i, j, hw.toIsWord, .inl ⟨hentry.symm.trans hword, rfl⟩⟩
  · obtain ⟨r, i, b, -, -, hmem⟩ := mem_sweep h
    obtain ⟨x, -, rfl, -⟩ := mem_attribute_rule hmem
    replace ht : hostClassMark ∈ ["function", "async function"] := ht
    exact absurd ht (by decide)
  · obtain ⟨i, j, host, -, -, -, hs, rfl⟩ := Member.mem_edits_iff.1 h
    obtain ⟨entry, hmem, -⟩ := hs
    exact absurd ht (spelled_function.2 _ (List.mem_append_right _ hmem))

section outputs

variable {src : Bytes} {i j p q r : Nat} {kaam name : Option Span} (hw : LiveWord src i j)
  (hmark : src.extract i j = asyncWord) (hh : Heading src j kaam name p)
  (hput : PutAt src ⟨.keyword, i, j, asyncSpelling kaam name⟩ q) (hkept : Kept src p r)

theorem asyncSpelling_words (kaam name : Option Span) :
    IsWord (utf8 (asyncSpelling kaam name)) 0 5 ∧ (utf8 (asyncSpelling kaam name)).extract 0 5 = hostAsync ∧
      (asyncSpelling kaam name = "async function" → IsWord (utf8 (asyncSpelling kaam name)) 6 14 ∧
        (utf8 (asyncSpelling kaam name)).extract 6 14 = hostFunction) := by
  have htexts : ∀ text ∈ ["async", "async function"], IsWord (utf8 text) 0 5 ∧ (utf8 text).extract 0 5 = hostAsync ∧
      (text = "async function" → IsWord (utf8 text) 6 14 ∧ (utf8 text).extract 6 14 = hostFunction) := by
    decide +kernel
  apply htexts
  unfold asyncSpelling
  split <;> simp

theorem asyncSpelling_ne (kaam name : Option Span) : asyncSpelling kaam name ≠ "function" := by
  unfold asyncSpelling
  split <;> decide

theorem asyncSpelling_pos (kaam name : Option Span) : 5 ≤ (utf8 (asyncSpelling kaam name)).size :=
  (asyncSpelling_words kaam name).1.le_size

theorem size_hostFunction : hostFunction.size = 8 := by cbv

include hh hput hkept in
/-- a word `function` of the output between the mark and the parenthesis is put for the mark or for `kaam` -/
theorem source_of_function {k : Nat} (hk : k ∈ occurrences (respelled src) hostFunction (q + 5) r) :
    (asyncSpelling kaam name = "async function" ∧ k = q + 6) ∨
      ∃ w ∈ kaam, PutAt src ⟨.keyword, w.start, w.stop, "function"⟩ k := by
  obtain ⟨h1, h2, hword, htext⟩ := mem_occurrences.1 hk
  rw [size_hostFunction] at h2 hword htext
  obtain ⟨ahead, hseam⟩ := id hput
  obtain ⟨ahead', hseam', -⟩ := id hkept
  rcases word_origin hword with ⟨a, hsource, hbytes, hsame⟩ | ⟨e, q', n, he, rfl, hsource, hsame⟩
  · -- a kept word lies in the heading, where no word is `function`
    exfalso
    have hfirst : Kept src a k := hbytes 0 (by omega)
    have hbehind : i ≤ a := Nat.le_of_not_lt (mt (hfirst.lt_iff hseam).1 (by omega))
    have hja : j ≤ a := Nat.le_of_not_lt fun hlt => hfirst.not_covered hput.mem ⟨hbehind, hlt⟩
    have hap : a < p := (hfirst.lt_iff hseam').2 (by omega)
    rw [htext] at hsame
    rcases hh.word_cases hsource hja hap with hkaam | hname
    · exact functionWord_apart.2.2.2.1 ((hh.kaams _ hkaam).symm.trans hsame)
    · exact hname.host hsame
  · have hn : n + (q' + n + 8 - (q' + n)) = n + 8 := by omega
    rw [hn] at hsource hsame
    have hfits := hsource.le_size
    have hhost := hosts_function e.text he.text_mem_hosts n (by omega) (size_hostFunction ▸ hsource)
      (size_hostFunction ▸ hsame.trans htext)
    rcases Nat.lt_trichotomy q' q with hlt | rfl | hgt
    · -- what is put before the mark ends before it
      have hend := (he.passed hseam (.inr hlt)).2
      omega
    · obtain rfl := he.edit_unique hput (by omega) (Nat.lt_of_lt_of_le (by decide) (asyncSpelling_pos kaam name))
      rcases hhost with ⟨htext', -⟩ | ⟨htext', rfl⟩
      · exact absurd htext' (asyncSpelling_ne kaam name)
      · exact .inl ⟨htext', rfl⟩
    · -- what is put behind the mark stands in the heading
      obtain ⟨ahead'', hseam''⟩ := id he
      have hje : j ≤ e.start := (hput.passed hseam'' (.inr hgt)).1
      have hep : e.stop ≤ p := (he.passed hseam' (.inr (by omega))).1
      obtain ⟨a, b, hw', hcases⟩ := function_source he.mem (by rcases hhost with ⟨h, -⟩ | ⟨h, -⟩ <;> simp [h])
      rcases hcases with ⟨hkaam, rfl⟩ | ⟨hasync, rfl⟩
      · obtain ⟨-, rfl⟩ := hhost.resolve_right fun h => absurd h.1 (by simp)
        rcases hh.word_cases hw' hje (Nat.lt_of_lt_of_le hw'.lt hep) with hin | hname
        · exact .inr ⟨⟨a, b⟩, hin, he⟩
        · exact absurd (hkaam ▸ functionWord_keyword) (hname.keyword "function")
      · rcases hh.word_cases hw' hje (Nat.lt_of_lt_of_le hw'.lt hep) with hin | hname
        · exact absurd ((hh.kaams _ hin).symm.trans hasync) functionWord_apart.2.1
        · exact absurd hasync hname.mark

include hw hh hput hkept in
/-- **The words `function`** between the mark and the parenthesis: the one put for the mark, and the one put for
`kaam`. -/
theorem mem_functions_iff {k : Nat} : k ∈ occurrences (respelled src) hostFunction (q + 5) r ↔
    (asyncSpelling kaam name = "async function" ∧ k = q + 6) ∨
      ∃ w ∈ kaam, PutAt src ⟨.keyword, w.start, w.stop, "function"⟩ k := by
  refine ⟨source_of_function hh hput hkept, ?_⟩
  obtain ⟨ahead, hseam, -⟩ := id hkept
  intro h
  rw [mem_occurrences, size_hostFunction]
  rcases h with ⟨hspelled, rfl⟩ | ⟨w, hkaam, hk⟩
  · obtain ⟨hword, htext⟩ := (asyncSpelling_words kaam name).2.2 hspelled
    have hend : q + (utf8 (asyncSpelling kaam name)).size ≤ r :=
      (hput.passed hseam (.inl (Nat.lt_of_lt_of_le hw.lt hh.words.le))).2
    have hfits := hword.le_size
    obtain ⟨hout, hsame⟩ := hput.isWord hw.toIsWord hword
    exact ⟨by omega, by omega, hout, hsame.trans htext⟩
  · obtain ⟨hword, hjw, -⟩ := hh.kaam_edit hw hkaam
    have hwp := (hh.words.bounds w (List.mem_append_left _ (Option.mem_toList.2 hkaam))).2.1
    have htext : IsWord (utf8 "function") 0 8 := by decide +kernel
    have hwhole : (utf8 "function").extract 0 8 = hostFunction := by cbv
    obtain ⟨ahead', hseam'⟩ := id hk
    have hbefore : q + (utf8 (asyncSpelling kaam name)).size ≤ k :=
      (hput.passed hseam' (.inl (Nat.lt_of_lt_of_le hw.lt hjw))).2
    have hafter : k + (utf8 "function").size ≤ r := (hk.passed hseam (.inl (Nat.lt_of_lt_of_le hword.lt hwp))).2
    have hfits := htext.le_size
    have hpos := asyncSpelling_pos kaam name
    obtain ⟨hout, hsame⟩ := hk.isWord hword htext
    exact ⟨by omega, by omega, hout, hsame.trans hwhole⟩

include hw hh hput hkept in
theorem card_functions : (occurrences (respelled src) hostFunction (q + 5) r).card =
    if name.isSome then 1 else if kaam.isSome then 2 else 0 := by
  have hmem := fun k => mem_functions_iff hw hh hput hkept (k := k)
  cases hk : kaam with
  | none =>
    cases hn : name with
    | none =>
      refine Finset.card_eq_zero.2 (Finset.ext fun k => ?_)
      simp [hmem, hk, hn, asyncSpelling]
    | some v =>
      refine Finset.card_eq_one.2 ⟨q + 6, Finset.ext fun k => ?_⟩
      simp [hmem, hk, hn, asyncSpelling]
  | some w =>
    obtain ⟨hword, hjw, hedit⟩ := hh.kaam_edit hw hk
    obtain ⟨q', hput'⟩ := exists_putAt hedit hword.lt
    have hat : ∀ k, PutAt src ⟨.keyword, w.start, w.stop, "function"⟩ k ↔ k = q' := fun k =>
      ⟨fun h => h.output_unique hput' hword.lt, fun h => h ▸ hput'⟩
    cases hn : name with
    | none =>
      -- the text that is put for the mark ends before the one that is put for `kaam`
      have hne : q + 6 ≠ q' := by
        obtain ⟨ahead', hseam'⟩ := id hput'
        have hspelled : asyncSpelling kaam name = "async function" := by simp [asyncSpelling, hk, hn]
        have hend : q + (utf8 (asyncSpelling kaam name)).size ≤ q' :=
          (hput.passed hseam' (.inl (Nat.lt_of_lt_of_le hw.lt hjw))).2
        have hfits := ((asyncSpelling_words kaam name).2.2 hspelled).1.le_size
        omega
      refine Finset.card_eq_two.2 ⟨q + 6, q', hne, Finset.ext fun k => ?_⟩
      simp [hmem, hk, hn, asyncSpelling, hat]
    | some v =>
      refine Finset.card_eq_one.2 ⟨q', Finset.ext fun k => ?_⟩
      simp [hmem, hk, hn, asyncSpelling, hat]

end outputs

/-- a trailer brings no word before the end of the output -/
theorem occurrences_append {code trailer word : Bytes} {i j : Nat} (h : j < code.size) :
    occurrences (code ++ trailer) word i j = occurrences code word i j := by
  ext k
  rw [mem_occurrences, mem_occurrences]
  refine and_congr_right fun _ => and_congr_right fun hk => ?_
  rw [isWord_append (Nat.lt_of_le_of_lt hk h), extract_append (Nat.le_trans hk (Nat.le_of_lt h))]

/-- **Asynchronous functions.** Take a live mark, behind it `kaam` or not, then a name or not, and then `(`. In the
output the word `async` stands where the mark stood, and between it and the `(` stands the word `function`: once if
there is a name, twice if there is `kaam` and no name, and else not at all. -/
theorem async_functions (source : String) (options : Options) {i j p : Nat} {kaam name : Option Span}
    (hw : LiveWord (utf8 source) i j) (hmark : (utf8 source).extract i j = asyncWord)
    (hh : Heading (utf8 source) j kaam name p) :
    ∃ out q r, respell source options = .ok out ∧ out.alignment.outputOffset i = some q ∧
      out.alignment.outputOffset p = some r ∧ out.code[r]? = some (ascii '(') ∧
      IsWord out.code q (q + 5) ∧ out.code.extract q (q + 5) = hostAsync ∧ q + 5 ≤ r ∧
      (occurrences out.code hostFunction (q + 5) r).card =
        if name.isSome then 1 else if kaam.isSome then 2 else 0 := by
  obtain ⟨trailer, hout⟩ := respell_eq source options
  obtain ⟨q, hput⟩ := exists_putAt (hh.mark_edit hw hmark) hw.lt
  obtain ⟨r, hkept⟩ := exists_kept hh.paren (by decide) (by decide)
  obtain ⟨ahead, hseam, -⟩ := id hkept
  have hparen : (respelled (utf8 source))[r]? = some (ascii '(') := hkept.get.trans hh.paren
  obtain ⟨hr, -⟩ := Array.getElem?_eq_some_iff.1 hparen
  have hend : q + (utf8 (asyncSpelling kaam name)).size ≤ r :=
    (hput.passed hseam (.inl (Nat.lt_of_lt_of_le hw.lt hh.words.le))).2
  have hle : q + 5 ≤ r := Nat.le_trans (Nat.add_le_add_left (asyncSpelling_pos kaam name) q) hend
  obtain ⟨hword, htext, -⟩ := asyncSpelling_words kaam name
  obtain ⟨hasync, hsame⟩ := hput.isWord hw.toIsWord hword
  refine ⟨_, q, r, hout, hput.outputOffset hw.lt, hkept.outputOffset, ?_, ?_, ?_, hle, ?_⟩
  · exact (Array.getElem?_append_left hr).trans hparen
  · exact (isWord_append (Nat.lt_of_le_of_lt hle hr)).2 hasync
  · exact (extract_append (Nat.le_trans hle (Nat.le_of_lt hr))).trans (hsame.trans htext)
  · exact (congrArg Finset.card (occurrences_append hr)).trans (card_functions hw hh hput hkept)

/-- in a template hole, with `kaam` and with a name that is spelled anew itself -/
theorem async_functions_hole :
    let source := "`$\x7basync_kaam kaam\ndikha (x)\x7d`"
    LiveWord (utf8 source) 3 13 ∧ (utf8 source).extract 3 13 = asyncWord ∧
      Heading (utf8 source) 13 (some ⟨14, 18⟩) (some ⟨19, 24⟩) 25 ∧
      ∃ out q r, respell source .default = .ok out ∧ out.alignment.outputOffset 3 = some q ∧
        out.alignment.outputOffset 25 = some r ∧ (occurrences out.code hostFunction (q + 5) r).card = 1 := by
  intro source
  have hfacts : IsWord (utf8 source) 3 13 ∧ liveAt (utf8 source) 3 ≠ none ∧ (utf8 source).extract 3 13 = asyncWord ∧
      Heading (utf8 source) 13 (some ⟨14, 18⟩) (some ⟨19, 24⟩) 25 := by
    decide +kernel
  obtain ⟨hword, hlive, hmark, hh⟩ := hfacts
  have hw : LiveWord (utf8 source) 3 13 := ⟨hword, live_iff.2 hlive⟩
  obtain ⟨out, q, r, hout, hq, hr, -, -, -, -, hcard⟩ := async_functions source .default hw hmark hh
  exact ⟨hw, hmark, hh, out, q, r, hout, hq, hr, hcard⟩

/-- **`function` twice.** A mark with `kaam` and no name is spelled with two words `function` before the `(`. -/
theorem function_doubled :
    let source := "async_kaam kaam (x)"
    LiveWord (utf8 source) 0 10 ∧ (utf8 source).extract 0 10 = asyncWord ∧
      Heading (utf8 source) 10 (some ⟨11, 15⟩) none 16 ∧
      ∃ out, respell source .default = .ok out ∧ out.code = utf8 "async function function (x)" ∧
        out.alignment.outputOffset 0 = some 0 ∧ out.alignment.outputOffset 16 = some 24 ∧
        (occurrences out.code hostFunction 5 24).card = 2 := by
  intro source
  have hedits : allEdits (utf8 source) = [⟨.keyword, 0, 10, "async function"⟩, ⟨.keyword, 11, 15, "function"⟩] ∧
      IsWord (utf8 source) 0 10 ∧ liveAt (utf8 source) 0 ≠ none ∧ (utf8 source).extract 0 10 = asyncWord ∧
      Heading (utf8 source) 10 (some ⟨11, 15⟩) none 16 := by
    decide +kernel
  obtain ⟨hedits, hword, hlive, hmark, hh⟩ := hedits
  have hordered :
      orderedEdits (utf8 source) = [⟨.keyword, 0, 10, "async function"⟩, ⟨.keyword, 11, 15, "function"⟩] := by
    rw [orderedEdits, hedits, Edit.inOrder, List.mergeSort_of_pairwise (by decide)]
  refine ⟨⟨hword, live_iff.2 hlive⟩, hmark, hh, _, by simp only [respell, applyEdits_allEdits]; rfl, ?_⟩
  simp only [Options.default, Bool.false_eq_true, if_false, Array.append_empty, hordered]
  decide +kernel

end Respell
