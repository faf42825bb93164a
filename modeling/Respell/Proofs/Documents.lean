/-
Well-formed documents, and what the scanner finds in them. A document is a code sequence (`Code`): plain bytes,
comments, quoted strings, and templates, whose text is interrupted by holes that hold code sequences again, to any
depth. `render` writes a document out, and `plainAt` lists the offsets at which its plain bytes come to stand, at all
depths.

`walk_render`: a walk over the rendered text of a well-formed document yields exactly these offsets, in order, and
ends in normal code. The proof follows the document: `yields_code` and `yields_template` say what the scanner does
over a rendered part, from any position and with any suspended regions, and come back to the region that the part
began in.
-/
import Respell.Proofs.Agreement
import Respell.Proofs.Characters

namespace Respell.Document

/-! ## Documents -/

inductive Quote where
  | single
  | double
deriving DecidableEq, Repr

def Quote.char : Quote → Char
  | .single => '\''
  | .double => '"'

def Quote.region : Quote → Region
  | .single => .singleQuoted
  | .double => .doubleQuoted

/-- a character of a quoted string or of template text: itself, or after a backslash -/
inductive Letter where
  | plain (c : Char)
  | escaped (c : Char)
deriving DecidableEq, Repr

mutual

inductive Code where
  | nil
  | plain (b : UInt8) (rest : Code)
  | lineComment (text : List Char) (rest : Code)
  | blockComment (text : List Char) (rest : Code)
  | quoted (quote : Quote) (text : List Letter) (rest : Code)
  | template (text : Template) (rest : Code)

/-- what stands between the two marks of a template -/
inductive Template where
  | nil
  | letter (x : Letter) (rest : Template)
  | hole (code : Code) (rest : Template)

end

/-! ## Rendering -/

def Letter.render : Letter → List UInt8
  | .plain c => encode c
  | .escaped c => ascii '\\' :: encode c

mutual

def Code.render : Code → List UInt8
  | .nil => []
  | .plain b rest => b :: rest.render
  | .lineComment text rest => ascii '/' :: ascii '/' :: (text.flatMap encode ++ ascii '\n' :: rest.render)
  | .blockComment text rest =>
    ascii '/' :: ascii '*' :: (text.flatMap encode ++ ascii '*' :: ascii '/' :: rest.render)
  | .quoted quote text rest =>
    ascii quote.char :: (text.flatMap Letter.render ++ ascii quote.char :: rest.render)
  | .template text rest => 0x60 :: (text.render ++ 0x60 :: rest.render)

def Template.render : Template → List UInt8
  | .nil => []
  | .letter x rest => x.render ++ rest.render
  | .hole code rest => ascii '$' :: ascii '{' :: (code.render ++ ascii '}' :: rest.render)

end

mutual

/-- the offsets of the plain bytes of a code sequence that is written out from offset `p` on -/
def Code.plainAt (p : Nat) : Code → List Nat
  | .nil => []
  | .plain _ rest => p :: rest.plainAt (p + 1)
  | .lineComment text rest => rest.plainAt (p + 2 + (text.flatMap encode).length + 1)
  | .blockComment text rest => rest.plainAt (p + 2 + (text.flatMap encode).length + 2)
  | .quoted _ text rest => rest.plainAt (p + 1 + (text.flatMap Letter.render).length + 1)
  | .template text rest => text.plainAt (p + 1) ++ rest.plainAt (p + 1 + text.render.length + 1)

/-- the offsets of the plain bytes in the holes of a template that is written out from offset `p` on -/
def Template.plainAt (p : Nat) : Template → List Nat
  | .nil => []
  | .letter x rest => rest.plainAt (p + x.render.length)
  | .hole code rest => code.plainAt (p + 2) ++ rest.plainAt (p + 2 + code.render.length + 1)

end

/-! ## Well-formed documents -/

/-- the braces that are open after a code sequence, if `depth` are open before it and none is closed that was not -/
def Code.depth (depth : Nat) : Code → Option Nat
  | .nil => some depth
  | .plain b rest =>
    if b = ascii '{' then rest.depth (depth + 1)
    else if b = ascii '}' then if depth = 0 then none else rest.depth (depth - 1)
    else rest.depth depth
  | .lineComment _ rest | .blockComment _ rest | .quoted _ _ rest | .template _ rest => rest.depth depth

/-- as many braces are closed as are opened, and none before it is opened -/
def Code.Balanced (code : Code) : Prop := code.depth 0 = some 0

/-- an ordinary character of a quoted string is not its quote, a backslash or a line feed; an escaped one is any -/
def Letter.FitsQuote (quote : Quote) : Letter → Prop
  | .plain c => c ≠ quote.char ∧ c ≠ '\\' ∧ c ≠ '\n'
  | .escaped _ => True

/-- an ordinary character of template text is not a backquote or a backslash; an escaped one is any -/
def Letter.FitsTemplate : Letter → Prop
  | .plain c => c ≠ '\x60' ∧ c ≠ '\\'
  | .escaped _ => True

mutual

def Code.WellFormed : Code → Prop
  | .nil => True
  | .plain b rest =>
    b ≠ ascii '\'' ∧ b ≠ ascii '"' ∧ b ≠ 0x60 ∧
      (b = ascii '/' → rest.render.head? ≠ some (ascii '/') ∧ rest.render.head? ≠ some (ascii '*')) ∧ rest.WellFormed
  | .lineComment text rest => '\n' ∉ text ∧ rest.WellFormed
  | .blockComment text rest => ¬ ['*', '/'] <:+: text ∧ rest.WellFormed
  | .quoted quote text rest => (∀ x ∈ text, x.FitsQuote quote) ∧ rest.WellFormed
  | .template text rest => text.WellFormed ∧ rest.WellFormed

def Template.WellFormed : Template → Prop
  | .nil => True
  | .letter x rest => x.FitsTemplate ∧ (x = .plain '$' → rest.render.head? ≠ some (ascii '{')) ∧ rest.WellFormed
  | .hole code rest => code.WellFormed ∧ code.Balanced ∧ rest.WellFormed

end

/-! ## Walking on -/

/-- walking on from `s` yields the offsets `live` and comes to `t` -/
structure Yields (src : Bytes) (s : Scanner) (live : List Nat) (t : Scanner) : Prop where
  offsets : (s.walk src).1.map Prod.fst = live ++ (t.walk src).1.map Prod.fst
  last : (s.walk src).2 = (t.walk src).2

theorem Yields.refl (src : Bytes) (s : Scanner) : Yields src s [] s := ⟨rfl, rfl⟩

theorem Yields.trans {src : Bytes} {s t u : Scanner} {xs ys : List Nat} (h1 : Yields src s xs t)
    (h2 : Yields src t ys u) : Yields src s (xs ++ ys) u :=
  ⟨by rw [h1.offsets, h2.offsets, List.append_assoc], h1.last.trans h2.last⟩

/-- over bytes that are not live -/
theorem Yields.silent {src : Bytes} {s t u : Scanner} {ys : List Nat} (h1 : Yields src s [] t)
    (h2 : Yields src t ys u) : Yields src s ys u := h1.trans h2

/-- over bytes that are not live, and on to an offset given in another form -/
theorem Yields.silent_to {src : Bytes} {s t : Scanner} {ys : List Nat} {q q' : Nat} {r : Region} {ss : List Region}
    (h1 : Yields src s [] t) (h2 : Yields src t ys ⟨q, r, ss⟩) (hq : q = q') : Yields src s ys ⟨q', r, ss⟩ :=
  hq ▸ h1.silent h2

section

variable {src : Bytes} {s t : Scanner} {p : Nat} {b : UInt8} {xs rest : List UInt8}

theorem walk_of_none (h : s.nextLive src = (none, t)) : s.walk src = ([], t) := by
  rw [Scanner.walk.eq_def]
  split <;> simp_all

theorem walk_of_some {i : Nat} (h : s.nextLive src = (some i, t)) :
    s.walk src = ((i, t.region) :: (t.walk src).1, (t.walk src).2) := by
  rw [Scanner.walk.eq_def]
  split <;> simp_all

theorem yields_live (hb : src[s.pos]? = some b) (hs : s.step src b = (t, true)) : Yields src s [s.pos] t := by
  obtain ⟨hlt, rfl⟩ := Array.getElem?_eq_some_iff.1 hb
  have hn : s.nextLive src = (some s.pos, t) := by
    rw [Scanner.nextLive]
    simp [hlt, hs]
  exact ⟨by rw [walk_of_some hn]; rfl, by rw [walk_of_some hn]⟩

theorem yields_dead (hb : src[s.pos]? = some b) (hs : s.step src b = (t, false)) : Yields src s [] t := by
  obtain ⟨hlt, rfl⟩ := Array.getElem?_eq_some_iff.1 hb
  have hn : s.nextLive src = t.nextLive src := by
    rw [Scanner.nextLive]
    simp [hlt, hs]
  have hw : s.walk src = t.walk src := by
    cases h : t.nextLive src with
    | mk found u =>
      cases found with
      | none => rw [walk_of_none h, walk_of_none (hn.trans h)]
      | some i => rw [walk_of_some h, walk_of_some (hn.trans h)]
  exact ⟨by rw [hw]; rfl, by rw [hw]⟩

/-- over text that its region passes over byte by byte -/
theorem yields_text {r : Region} {ss : List Region}
    (hr : ∀ b ∈ xs, ∀ p, Scanner.step src ⟨p, r, ss⟩ b = (⟨p + 1, r, ss⟩, false))
    (h : src.toList.drop p = xs ++ rest) : Yields src ⟨p, r, ss⟩ [] ⟨p + xs.length, r, ss⟩ := by
  induction xs generalizing p with
  | nil => exact .refl src _
  | cons b xs ih =>
    have hstep := yields_dead (s := ⟨p, r, ss⟩) (getElem?_of_drop h) (hr b List.mem_cons_self p)
    have htail := ih (fun x hx => hr x (List.mem_cons_of_mem b hx)) (drop_succ_of_drop h)
    rw [Nat.add_right_comm] at htail
    exact hstep.silent htail

end

/-! ## Comments -/

section

variable {src : Bytes} {ss : List Region} {r : Region}

theorem step_opening {p n : Nat} {b : UInt8} {q : Region} (hr : r.isCode = true)
    (ho : Scanner.opening? src p b = some (q, n)) :
    Scanner.step src ⟨p, r, ss⟩ b = (⟨p + n, q, r :: ss⟩, false) := by
  cases r with
  | normal => simp only [Scanner.step, ho, Scanner.enter]
  | hole depth => simp only [Scanner.step, ho, Scanner.enter]
  | _ => cases hr

theorem yields_lineComment {p : Nat} {text : List Char} {rest : List UInt8} (hr : r.isCode = true) (ht : '\n' ∉ text)
    (h : src.toList.drop p = ascii '/' :: ascii '/' :: (text.flatMap encode ++ ascii '\n' :: rest)) :
    Yields src ⟨p, r, ss⟩ [] ⟨p + 2 + (text.flatMap encode).length + 1, r, ss⟩ := by
  have h1 := drop_succ_of_drop h
  have h2 := drop_succ_of_drop h1
  have h3 := drop_add_of_drop h2
  have ho : Scanner.opening? src p (ascii '/') = some (.lineComment, 2) := by
    simp [Scanner.opening?, getElem?_of_drop h1]
  have htext : ∀ b ∈ text.flatMap encode, ∀ p,
      Scanner.step src ⟨p, .lineComment, r :: ss⟩ b = (⟨p + 1, .lineComment, r :: ss⟩, false) := by
    intro b hb p
    obtain ⟨c, hc, hbc⟩ := List.mem_flatMap.1 hb
    have hne : b ≠ ascii '\n' := by
      rintro rfl
      exact ht (ascii_mem_encode (by decide) hbc ▸ hc)
    simp [Scanner.step, hne, Scanner.advance]
  refine (yields_dead (getElem?_of_drop h) (step_opening hr ho)).silent ((yields_text htext h2).silent ?_)
  exact yields_dead (getElem?_of_drop h3) (by simp [Scanner.step, Scanner.leave])

/-- over comment text up to its closing mark: no byte of it closes the comment -/
theorem yields_commentText {p : Nat} {text : List Char} {rest : List UInt8} (ht : ¬ ['*', '/'] <:+: text)
    (h : src.toList.drop p = text.flatMap encode ++ ascii '*' :: ascii '/' :: rest) :
    Yields src ⟨p, .blockComment, ss⟩ [] ⟨p + (text.flatMap encode).length, .blockComment, ss⟩ := by
  induction text generalizing p with
  | nil => exact .refl src _
  | cons c text ih =>
    have htext : ¬ ['*', '/'] <:+: text := fun hin => ht (hin.trans (List.suffix_cons c text).isInfix)
    rw [List.flatMap_cons, List.append_assoc] at h
    have htail := ih htext (drop_add_of_drop h)
    rw [List.flatMap_cons, List.length_append, ← Nat.add_assoc]
    refine Yields.silent ?_ htail
    by_cases hc : c = '*'
    · -- a star closes the comment only before a slash, and none follows
      subst hc
      rw [show encode '*' = [ascii '*'] by decide] at h ⊢
      have hnext : src[p + 1]? ≠ some (ascii '/') := by
        intro hslash
        rw [getElem?_head? (drop_succ_of_drop h)] at hslash
        cases text with
        | nil => exact absurd (Option.some.inj hslash) (by decide)
        | cons d text =>
          obtain ⟨b, bs, heq, -⟩ := encode_eq_cons d
          have hb : b = ascii '/' := by simpa [heq] using hslash
          have hd : d = '/' := ascii_mem_encode (by decide) (by simp [heq, hb])
          exact ht ⟨[], text, by simp [hd]⟩
      exact yields_dead (getElem?_of_drop h) (by simp [Scanner.step, hnext, Scanner.advance])
    · refine yields_text ?_ h
      intro b hb p
      have hne : b ≠ ascii '*' := by
        rintro rfl
        exact hc (ascii_mem_encode (by decide) hb)
      simp [Scanner.step, hne, Scanner.advance]

theorem yields_blockComment {p : Nat} {text : List Char} {rest : List UInt8} (hr : r.isCode = true)
    (ht : ¬ ['*', '/'] <:+: text)
    (h : src.toList.drop p = ascii '/' :: ascii '*' :: (text.flatMap encode ++ ascii '*' :: ascii '/' :: rest)) :
    Yields src ⟨p, r, ss⟩ [] ⟨p + 2 + (text.flatMap encode).length + 2, r, ss⟩ := by
  have h1 := drop_succ_of_drop h
  have h2 := drop_succ_of_drop h1
  have h3 := drop_add_of_drop h2
  have ho : Scanner.opening? src p (ascii '/') = some (.blockComment, 2) := by
    simp +decide [Scanner.opening?, getElem?_of_drop h1]
  refine (yields_dead (getElem?_of_drop h) (step_opening hr ho)).silent ((yields_commentText ht h2).silent ?_)
  refine yields_dead (getElem?_of_drop h3) ?_
  simp only [Scanner.step, getElem?_of_drop (drop_succ_of_drop h3), and_self, if_true, Scanner.leave]
  rfl

end

/-! ## Strings and template text -/

section

variable {src : Bytes} {ss : List Region} {p : Nat} {rest : List UInt8}

theorem head?_render_letter (x : Letter) (rest : List UInt8) :
    (x.render ++ rest).head?.any isContinuation = false := by
  cases x with
  | plain c =>
    obtain ⟨b, bs, heq, hb, -⟩ := encode_eq_cons c
    simp [Letter.render, heq, hb]
  | escaped c => rfl

/-- a backslash takes the whole character after it along -/
theorem skipEscape_encode {r : Region} {c : Char} (h : src.toList.drop p = ascii '\\' :: (encode c ++ rest))
    (hr : rest.head?.any isContinuation = false) :
    Scanner.skipEscape src ⟨p, r, ss⟩ = ⟨p + (ascii '\\' :: encode c).length, r, ss⟩ := by
  simp only [Scanner.skipEscape, endOfChar_encode (drop_succ_of_drop h) hr, List.length_cons]
  congr 1
  omega

theorem yields_quotedLetters {quote : Quote} {text : List Letter} (ht : ∀ x ∈ text, x.FitsQuote quote)
    (h : src.toList.drop p = text.flatMap Letter.render ++ ascii quote.char :: rest) :
    Yields src ⟨p, quote.region, ss⟩ [] ⟨p + (text.flatMap Letter.render).length, quote.region, ss⟩ := by
  induction text generalizing p with
  | nil => exact .refl src _
  | cons x text ih =>
    rw [List.flatMap_cons, List.append_assoc] at h
    have htail := ih (fun y hy => ht y (List.mem_cons_of_mem x hy)) (drop_add_of_drop h)
    rw [List.flatMap_cons, List.length_append, ← Nat.add_assoc]
    refine Yields.silent ?_ htail
    have hx := ht x List.mem_cons_self
    cases x with
    | plain c =>
      obtain ⟨h1, h2, h3⟩ := hx
      refine yields_text ?_ h
      intro b hb p
      have n1 : b ≠ ascii quote.char := by
        rintro rfl
        exact h1 (ascii_mem_encode (by cases quote <;> decide) hb)
      have n2 : b ≠ ascii '\\' := by
        rintro rfl
        exact h2 (ascii_mem_encode (by decide) hb)
      have n3 : b ≠ ascii '\n' := by
        rintro rfl
        exact h3 (ascii_mem_encode (by decide) hb)
      cases quote <;> simp_all [Scanner.step, Scanner.quotedStep, Quote.region, Quote.char, Scanner.advance]
    | escaped c =>
      have hcont : (text.flatMap Letter.render ++ ascii quote.char :: rest).head?.any isContinuation = false := by
        cases text with
        | nil => cases quote <;> rfl
        | cons y text => rw [List.flatMap_cons, List.append_assoc]; exact head?_render_letter y _
      have hesc : ∀ r, Scanner.skipEscape src ⟨p, r, ss⟩ = ⟨p + (ascii '\\' :: encode c).length, r, ss⟩ :=
        fun r => skipEscape_encode h hcont
      refine yields_dead (getElem?_of_drop h) ?_
      cases quote <;> simp [Scanner.step, Scanner.quotedStep, Quote.region, hesc, Letter.render]

theorem yields_quoted {r : Region} {quote : Quote} {text : List Letter} (hr : r.isCode = true)
    (ht : ∀ x ∈ text, x.FitsQuote quote)
    (h : src.toList.drop p = ascii quote.char :: (text.flatMap Letter.render ++ ascii quote.char :: rest)) :
    Yields src ⟨p, r, ss⟩ [] ⟨p + 1 + (text.flatMap Letter.render).length + 1, r, ss⟩ := by
  have h1 := drop_succ_of_drop h
  have h2 := drop_add_of_drop h1
  have ho : Scanner.opening? src p (ascii quote.char) = some (quote.region, 1) := by
    cases quote <;> simp +decide [Scanner.opening?, Quote.region]
  have hclose : ∀ q, Scanner.step src ⟨q, quote.region, r :: ss⟩ (ascii quote.char) = (⟨q + 1, r, ss⟩, false) := by
    intro q
    cases quote <;> simp +decide [Scanner.step, Scanner.quotedStep, Quote.region, Scanner.leave]
  refine (yields_dead (getElem?_of_drop h) (step_opening hr ho)).silent ((yields_quotedLetters ht h1).silent ?_)
  exact yields_dead (getElem?_of_drop h2) (hclose _)

/-- over one letter of template text; a dollar sign that is no mark has no brace after it -/
theorem yields_templateLetter {x : Letter} (hx : x.FitsTemplate)
    (hd : x = .plain '$' → rest.head? ≠ some (ascii '{')) (hc : rest.head?.any isContinuation = false)
    (h : src.toList.drop p = x.render ++ rest) :
    Yields src ⟨p, .template, ss⟩ [] ⟨p + x.render.length, .template, ss⟩ := by
  cases x with
  | escaped c =>
    refine yields_dead (getElem?_of_drop h) ?_
    simp [Scanner.step, Scanner.templateStep, skipEscape_encode h hc, Letter.render]
  | plain c =>
    obtain ⟨h1, h2⟩ := hx
    by_cases hdollar : c = '$'
    · subst hdollar
      have hnext := hd rfl
      simp only [Letter.render, show encode '$' = [ascii '$'] by decide] at h ⊢
      have hb : src[p + 1]? ≠ some (ascii '{') := by rwa [getElem?_head? (drop_succ_of_drop h)]
      exact yields_dead (getElem?_of_drop h) (by simp +decide [Scanner.step, Scanner.templateStep, hb, Scanner.advance])
    · refine yields_text ?_ h
      intro b hb p
      have n1 : b ≠ 0x60 := by
        rintro rfl
        exact h1 (ascii_mem_encode (d := '\x60') (by decide) hb)
      have n2 : b ≠ ascii '\\' := by
        rintro rfl
        exact h2 (ascii_mem_encode (by decide) hb)
      have n3 : b ≠ ascii '$' := by
        rintro rfl
        exact hdollar (ascii_mem_encode (by decide) hb)
      simp [Scanner.step, Scanner.templateStep, n1, n2, n3, Scanner.advance]

end

/-! ## Code and templates -/

/-- where a code sequence leads that begins in region `r`: outside holes to normal code, and in a hole to the depth that
its braces leave -/
def Code.Leads (r r' : Region) (code : Code) : Prop :=
  (r = .normal ∧ r' = .normal) ∨ ∃ d d', r = .hole (d + 1) ∧ r' = .hole (d' + 1) ∧ code.depth d = some d'

theorem Code.Leads.isCode {r r' : Region} {code : Code} (h : code.Leads r r') : r.isCode = true := by
  rcases h with ⟨rfl, -⟩ | ⟨d, d', rfl, -, -⟩ <;> rfl

theorem Code.Leads.nil {r r' : Region} (h : Code.nil.Leads r r') : r = r' := by
  rcases h with ⟨rfl, rfl⟩ | ⟨d, d', rfl, rfl, hd⟩
  · rfl
  · simp [Code.depth] at hd
    rw [hd]

theorem Code.Leads.plain {src : Bytes} (ss : List Region) {r r' : Region} {p : Nat} {b : UInt8} {rest : Code}
    (h : (Code.plain b rest).Leads r r') (ho : Scanner.opening? src p b = none) :
    ∃ r'', rest.Leads r'' r' ∧ Scanner.step src ⟨p, r, ss⟩ b = (⟨p + 1, r'', ss⟩, true) := by
  rcases h with ⟨rfl, rfl⟩ | ⟨d, d', rfl, rfl, hd⟩
  · exact ⟨.normal, .inl ⟨rfl, rfl⟩, by simp [Scanner.step, ho, Scanner.advance]⟩
  · simp only [Code.depth] at hd
    simp only [Scanner.step, ho, Scanner.holeStep]
    split_ifs at hd ⊢ with h1 h2 h3 h4
    · exact ⟨_, .inr ⟨d + 1, d', rfl, rfl, hd⟩, rfl⟩
    · omega
    · refine ⟨_, .inr ⟨d - 1, d', rfl, rfl, hd⟩, ?_⟩
      simp [Scanner.advance, show d - 1 + 1 = d by omega]
    · exact ⟨_, .inr ⟨d, d', rfl, rfl, hd⟩, rfl⟩

/-- what follows a code sequence joins with no slash at its end to a comment -/
def NoMark (rest : List UInt8) : Prop := rest.head? ≠ some (ascii '/') ∧ rest.head? ≠ some (ascii '*')

theorem noMark_brace (rest : List UInt8) : NoMark (ascii '}' :: rest) :=
  ⟨fun h => absurd (Option.some.inj h) (by decide), fun h => absurd (Option.some.inj h) (by decide)⟩

theorem opening?_plain {src : Bytes} {p : Nat} {b : UInt8} {code : Code} {rest : List UInt8}
    (hw : (Code.plain b code).WellFormed) (hm : NoMark rest) (h : src.toList.drop p = b :: (code.render ++ rest)) :
    Scanner.opening? src p b = none := by
  obtain ⟨h1, h2, h3, h4, -⟩ := hw
  have hslash : b = ascii '/' → src[p + 1]? ≠ some (ascii '/') ∧ src[p + 1]? ≠ some (ascii '*') := by
    intro hb
    rw [getElem?_head? (drop_succ_of_drop h)]
    cases hc : code.render with
    | nil => exact hm
    | cons x xs => simpa [hc] using h4 hb
  simp only [Scanner.opening?, h1, h2, h3, if_false]
  split_ifs with h5 h6
  · exact absurd h5.2 (hslash h5.1).1
  · exact absurd h6.2 (hslash h6.1).2
  · rfl

theorem head?_render_template (t : Template) (rest : List UInt8) :
    (t.render ++ 0x60 :: rest).head?.any isContinuation = false := by
  cases t with
  | nil => rfl
  | letter x t => rw [Template.render, List.append_assoc]; exact head?_render_letter x _
  | hole code t => rfl

mutual

/-- **Over a code sequence.** Its plain bytes are yielded, and it comes to where it leads. -/
theorem yields_code {src : Bytes} (ss : List Region) {r r' : Region} {p : Nat} {rest : List UInt8} :
    (code : Code) → code.WellFormed → code.Leads r r' → NoMark rest → src.toList.drop p = code.render ++ rest →
      Yields src ⟨p, r, ss⟩ (code.plainAt p) ⟨p + code.render.length, r', ss⟩
  | .nil, _, hl, _, _ => by
    rw [hl.nil]
    exact .refl src _
  | .plain b code, hw, hl, hm, h => by
    obtain ⟨r'', hl', hstep⟩ := hl.plain ss (opening?_plain hw hm h)
    have htail := yields_code ss code hw.2.2.2.2 hl' hm (drop_succ_of_drop h)
    have hlen : p + 1 + code.render.length = p + (Code.plain b code).render.length := by
      simp only [Code.render, List.length_cons]
      omega
    exact hlen ▸ (yields_live (s := ⟨p, r, ss⟩) (getElem?_of_drop h) hstep).trans htail
  | .lineComment text code, hw, hl, hm, h => by
    simp only [Code.render, List.cons_append, List.append_assoc] at h
    have hdrop := drop_succ_of_drop (drop_add_of_drop (drop_succ_of_drop (drop_succ_of_drop h)))
    refine (yields_lineComment hl.isCode hw.1 h).silent_to (yields_code ss code hw.2 hl hm hdrop) ?_
    simp only [Code.render, List.length_cons, List.length_append]
    omega
  | .blockComment text code, hw, hl, hm, h => by
    simp only [Code.render, List.cons_append, List.append_assoc] at h
    have hdrop := drop_succ_of_drop (drop_succ_of_drop (drop_add_of_drop (drop_succ_of_drop (drop_succ_of_drop h))))
    refine (yields_blockComment hl.isCode hw.1 h).silent_to (yields_code ss code hw.2 hl hm hdrop) ?_
    simp only [Code.render, List.length_cons, List.length_append]
    omega
  | .quoted quote text code, hw, hl, hm, h => by
    simp only [Code.render, List.cons_append, List.append_assoc] at h
    have hdrop := drop_succ_of_drop (drop_add_of_drop (drop_succ_of_drop h))
    refine (yields_quoted hl.isCode hw.1 h).silent_to (yields_code ss code hw.2 hl hm hdrop) ?_
    simp only [Code.render, List.length_cons, List.length_append]
    omega
  | .template text code, hw, hl, hm, h => by
    simp only [Code.render, List.cons_append, List.append_assoc] at h
    have h1 := drop_succ_of_drop h
    have h2 := drop_add_of_drop h1
    have ho : Scanner.opening? src p 0x60 = some (.template, 1) := by simp +decide [Scanner.opening?]
    have hopen : Yields src ⟨p, r, ss⟩ [] ⟨p + 1, .template, r :: ss⟩ :=
      yields_dead (getElem?_of_drop h) (step_opening hl.isCode ho)
    -- unlike the texts above, a template can hold live code of its own
    have htext := yields_template (r :: ss) text hw.1 h1
    have hclose : Yields src ⟨p + 1 + text.render.length, .template, r :: ss⟩ []
        ⟨p + 1 + text.render.length + 1, r, ss⟩ :=
      yields_dead (getElem?_of_drop h2) (by simp +decide [Scanner.step, Scanner.templateStep, Scanner.leave])
    have htail := yields_code ss code hw.2 hl hm (drop_succ_of_drop h2)
    refine hopen.silent_to (htext.trans (hclose.silent htail)) ?_
    simp only [Code.render, List.length_cons, List.length_append]
    omega

/-- **Over template text and its holes.** The plain bytes of the holes are yielded, and it comes back to text. -/
theorem yields_template {src : Bytes} (ss : List Region) {p : Nat} {rest : List UInt8} :
    (t : Template) → t.WellFormed → src.toList.drop p = t.render ++ 0x60 :: rest →
      Yields src ⟨p, .template, ss⟩ (t.plainAt p) ⟨p + t.render.length, .template, ss⟩
  | .nil, _, _ => .refl src _
  | .letter x t, hw, h => by
    simp only [Template.render, List.append_assoc] at h
    have hdollar : x = .plain '$' → (t.render ++ 0x60 :: rest).head? ≠ some (ascii '{') := by
      intro hx
      cases ht : t.render with
      | nil => exact fun hbad => absurd (Option.some.inj hbad) (by decide)
      | cons b bs => simpa [ht] using hw.2.1 hx
    have hletter : Yields src ⟨p, .template, ss⟩ [] ⟨p + x.render.length, .template, ss⟩ :=
      yields_templateLetter hw.1 hdollar (head?_render_template t rest) h
    refine hletter.silent_to (yields_template ss t hw.2.2 (drop_add_of_drop h)) ?_
    simp only [Template.render, List.length_append]
    omega
  | .hole code t, hw, h => by
    simp only [Template.render, List.cons_append, List.append_assoc] at h
    have h1 := drop_succ_of_drop h
    have h2 := drop_succ_of_drop h1
    have h3 := drop_add_of_drop h2
    have hopen : Yields src ⟨p, .template, ss⟩ [] ⟨p + 2, .hole 1, .template :: ss⟩ := by
      refine yields_dead (getElem?_of_drop h) ?_
      simp +decide [Scanner.step, Scanner.templateStep, getElem?_of_drop h1, Scanner.enter]
    have hleads : code.Leads (.hole 1) (.hole 1) := .inr ⟨0, 0, rfl, rfl, hw.2.1⟩
    have hcode := yields_code (.template :: ss) code hw.1 hleads (noMark_brace _) h2
    have hclose : Yields src ⟨p + 2 + code.render.length, .hole 1, .template :: ss⟩ []
        ⟨p + 2 + code.render.length + 1, .template, ss⟩ := by
      refine yields_dead (getElem?_of_drop h3) ?_
      simp +decide [Scanner.step, Scanner.opening?, Scanner.holeStep, Scanner.leave]
    have htail := yields_template ss t hw.2.2 (drop_succ_of_drop h3)
    refine hopen.silent_to (hcode.trans (hclose.silent htail)) ?_
    simp only [Template.render, List.length_cons, List.length_append]
    omega

end

/-! ## The whole document -/

/-- **The scanner on well-formed documents.** A walk over the rendered text yields the offsets of the plain bytes of all
depths, in order and nothing else, and ends at the end of the text in normal code with nothing suspended. -/
theorem walk_render (code : Code) (h : code.WellFormed) :
    (Scanner.walk code.render.toArray .start).1.map Prod.fst = code.plainAt 0 ∧
      (Scanner.walk code.render.toArray .start).2 = ⟨code.render.length, .normal, []⟩ := by
  have hm : NoMark [] := ⟨by decide, by decide⟩
  have hleads : code.Leads .normal .normal := .inl ⟨rfl, rfl⟩
  have htext : code.render.toArray.toList.drop 0 = code.render ++ [] := by simp
  have hy := yields_code [] code h hleads hm htext
  rw [Nat.zero_add] at hy
  have hend : Scanner.walk code.render.toArray ⟨code.render.length, .normal, []⟩ =
      ([], ⟨code.render.length, .normal, []⟩) := by
    apply walk_of_none
    rw [Scanner.nextLive]
    simp
  have hoffsets := hy.offsets
  have hlast := hy.last
  rw [hend] at hoffsets hlast
  exact ⟨hoffsets.trans (List.append_nil _), hlast⟩

/-- a template in the hole of a template, with braces in a string, escapes, and marks that only look like marks -/
def nested : Code :=
  .plain (ascii 'a') (.blockComment ['*'] (.quoted .single [.escaped '\'', .plain '{', .escaped 'é']
    (.template
      (.letter (.plain '$') (.hole
        (.plain (ascii '{') (.quoted .double [.plain '}'] (.template (.hole (.plain (ascii 'x') .nil) .nil)
          (.plain (ascii '}') .nil))))
        (.letter (.escaped '\x60') .nil)))
      (.lineComment ['/', '\''] (.plain (ascii '/') .nil)))))

theorem walk_render_nested :
    nested.WellFormed ∧ nested.plainAt 0 = [0, 18, 25, 28, 38] ∧
      (Scanner.walk nested.render.toArray .start).1.map Prod.fst = [0, 18, 25, 28, 38] ∧
      (Scanner.walk nested.render.toArray .start).2.region = .normal := by
  have hw : nested.WellFormed := by
    simp +decide [nested, Code.WellFormed, Template.WellFormed, Code.Balanced, Letter.FitsQuote, Letter.FitsTemplate]
  have hp : nested.plainAt 0 = [0, 18, 25, 28, 38] := by decide
  obtain ⟨h1, h2⟩ := walk_render nested hw
  exact ⟨hw, hp, h1.trans hp, by rw [h2]⟩

end Respell.Document
