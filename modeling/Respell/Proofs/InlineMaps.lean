/-
Maps read back. The JSON text of a map is read back to the map, with or without a file, with any strings in it and with
`null` for missing contents; only a version that does not fit in 32 bits is refused (`ofJson?_toJson`).

Main result, `inline_map_recovered`: an output that carries its map is the output without it and a comment, and the
map is recovered from the comment by base64, UTF-8 and JSON.
-/
import Respell.Proofs.Base64Decoding
import Respell.Proofs.Deliveries
import Respell.Proofs.JsonReading

namespace Respell

/-! ## Fields -/

namespace Json

/-- a natural number is read back from its literal, if it is below the bound -/
theorem asNatBelow?_toString (bound n : Nat) :
    asNatBelow? bound (.number (toString n)) = if n < bound then some n else none := by
  have hdigits : (toString n).toList.all Char.isDigit = true := by
    rw [Nat.toString_eq_repr, Nat.toList_repr, List.all_eq_true]
    exact fun c hc => Nat.isDigit_of_mem_toDigits (by decide) (by decide) hc
  have hvalue : Reading.ofDigits 10 (toString n).toList = n := by
    rw [Nat.toString_eq_repr, Nat.toList_repr, ofDigits_toDigits]
  rw [asNatBelow?, if_pos hdigits, hvalue]

theorem asList?_map {α : Type} {f : Json → Option α} {g : α → Json} (h : ∀ x, f (g x) = some x) (xs : List α) :
    asList? f (.array (xs.map g)) = some xs := by
  rw [asList?]
  induction xs with
  | nil => rfl
  | cons x xs ih => simp [h, ih]

end Json

namespace SourceMap

theorem orNull?_stringOrNull (content : Option String) :
    Json.orNull? Json.asString? (stringOrNull content) = some content := by
  cases content <;> rfl

/-! ## Maps -/

def members (m : SourceMap) : List (String × Json) :=
  ("version", .number (toString m.version)) ::
    ((m.file.map fun f => ("file", Json.string f)).toList ++
      [("sources", .array (m.sources.map .string)),
       ("sourcesContent", .array (m.sourcesContent.map stringOrNull)),
       ("names", .array (m.names.map .string)),
       ("mappings", .string m.mappings)])

theorem toJson_eq (m : SourceMap) : m.toJson = Json.render (.object m.members) := rfl

theorem plain_strings (ss : List String) : Json.Plain (.array (ss.map .string)) := by
  refine .array fun v hv => ?_
  obtain ⟨s, -, rfl⟩ := List.mem_map.1 hv
  exact .string s

theorem plain_contents (contents : List (Option String)) : Json.Plain (.array (contents.map stringOrNull)) := by
  refine .array fun v hv => ?_
  obtain ⟨content, -, rfl⟩ := List.mem_map.1 hv
  cases content with
  | none => exact .null
  | some s => exact .string s

theorem plain_members (m : SourceMap) : ∀ n ∈ m.members, Json.Plain n.2 := by
  obtain ⟨version, file, sources, contents, names, mappings⟩ := m
  cases file with
  | none =>
    simp only [members, Option.map_none, Option.toList_none, List.nil_append, List.forall_mem_cons]
    exact ⟨.number _, plain_strings _, plain_contents _, plain_strings _, .string _, by simp⟩
  | some file =>
    simp only [members, Option.map_some, Option.toList_some, List.cons_append, List.nil_append, List.forall_mem_cons]
    exact ⟨.number _, .string _, plain_strings _, plain_contents _, plain_strings _, .string _, by simp⟩

/-- the members are the fields in order, without `file` if there is none -/
theorem names_sublist (m : SourceMap) : (m.members.map Prod.fst).Sublist fields := by
  obtain ⟨version, file, sources, contents, names, mappings⟩ := m
  cases file with
  | none => exact .cons_cons _ (.cons _ (.refl _))
  | some file => exact .refl _

theorem lookup_members (m : SourceMap) :
    m.members.lookup "version" = some (.number (toString m.version)) ∧
      m.members.lookup "file" = m.file.map .string ∧
      m.members.lookup "sources" = some (.array (m.sources.map .string)) ∧
      m.members.lookup "sourcesContent" = some (.array (m.sourcesContent.map stringOrNull)) ∧
      m.members.lookup "names" = some (.array (m.names.map .string)) ∧
      m.members.lookup "mappings" = some (.string m.mappings) := by
  obtain ⟨version, file, sources, contents, names, mappings⟩ := m
  cases file with
  | none => exact ⟨rfl, rfl, rfl, rfl, rfl, rfl⟩
  | some file => exact ⟨rfl, rfl, rfl, rfl, rfl, rfl⟩

/-- **A map is read back** from its JSON text. -/
theorem ofJson?_toJson (m : SourceMap) : ofJson? m.toJson = if m.version < UInt32.size then some m else none := by
  have hsub := names_sublist m
  have hrecord : Json.record? fields m.toJson = some m.members := by
    rw [toJson_eq]
    exact Json.record?_render (plain_members m) (fun n hn => hsub.subset (List.mem_map_of_mem hn))
      (hsub.nodup (by decide : fields.Nodup))
  have hstrings := Json.asList?_map (fun _ => rfl : ∀ s, Json.asString? (.string s) = some s)
  obtain ⟨h1, h2, h3, h4, h5, h6⟩ := lookup_members m
  have hversion : Json.required? m.members "version" (Json.asNatBelow? UInt32.size) =
      if m.version < UInt32.size then some m.version else none := by
    rw [Json.required?, h1, Option.bind_some, Json.asNatBelow?_toString]
  have hfile : Json.optional? m.members "file" none (Json.orNull? Json.asString?) = some m.file := by
    rw [Json.optional?, h2]
    cases m.file <;> rfl
  have hsources : Json.required? m.members "sources" (Json.asList? Json.asString?) = some m.sources := by
    rw [Json.required?, h3, Option.bind_some, hstrings]
  have hcontents : Json.optional? m.members "sourcesContent" [] (Json.asList? (Json.orNull? Json.asString?)) =
      some m.sourcesContent := by
    rw [Json.optional?, h4]
    exact Json.asList?_map orNull?_stringOrNull _
  have hnames : Json.optional? m.members "names" [] (Json.asList? Json.asString?) = some m.names := by
    rw [Json.optional?, h5]
    exact hstrings _
  have hmappings : Json.required? m.members "mappings" Json.asString? = some m.mappings := by
    rw [Json.required?, h6, Option.bind_some, Json.asString?]
  simp only [ofJson?, hrecord, Option.bind_eq_bind, Option.bind_some, hversion, hfile, hsources, hcontents, hnames,
    hmappings, Option.pure_def]
  split_ifs <;> rfl

end SourceMap

/-! ## Maps in an output -/

theorem inlineComment_eq (m : SourceMap) : m.inlineComment =
    "\n//# sourceMappingURL=data:application/json;charset=utf-8;base64," ++
      String.ofList (Base64.encode (utf8 m.toJson).toList) := by
  have hlit : "\n//# sourceMappingURL=" ++ "data:application/json;charset=utf-8;base64," =
      "\n//# sourceMappingURL=data:application/json;charset=utf-8;base64," := by simp
  calc m.inlineComment = "\n//# sourceMappingURL=" ++ ("data:application/json;charset=utf-8;base64," ++
        String.ofList (Base64.encode (utf8 m.toJson).toList)) := rfl
    _ = _ := by rw [← String.append_assoc, hlit]

/-- **An appended map is recovered.** With the option to append the map, a source gets the same map and the same
alignment as without it, and its code is the other code and a comment line. What follows the comment's fixed beginning
is base64 without line breaks, its bytes are the UTF-8 of a text, and the text is read as the map. Every map is read
back from its JSON text in this way, but for those whose version does not fit in 32 bits. -/
theorem inline_map_recovered (source : String) (filename : Option String) :
    (∃ out text, respell source ⟨filename, false⟩ = .ok out ∧
      respell source ⟨filename, true⟩ = .ok { out with
        code := out.code ++
          utf8 ("\n//# sourceMappingURL=data:application/json;charset=utf-8;base64," ++ text) } ∧
      (∀ c ∈ text.toList, Base64.isWritten c = true ∧ c ≠ '\n' ∧ c ≠ '\r') ∧
      ∃ bytes json, Base64.decode? text.toList = some bytes ∧ Bytes.string? bytes.toArray = some json ∧
        SourceMap.ofJson? json = some out.map) ∧
    ∀ m : SourceMap, SourceMap.ofJson? m.toJson = if m.version < UInt32.size then some m else none := by
  refine ⟨?_, SourceMap.ofJson?_toJson⟩
  obtain ⟨trailer, hout⟩ := respell_eq source ⟨filename, false⟩
  -- of the map only the version matters: it is 3, whatever the source
  generalize hmap : SourceMap.ofOutput _ source _ _ = map at hout
  have hversion : map.version < UInt32.size := by
    rw [← hmap]
    exact (by decide : 3 < UInt32.size)
  refine ⟨_, String.ofList (Base64.encode (utf8 map.toJson).toList), hout, ?_, ?_, ?_⟩
  · rw [respell_inline hout true, if_pos rfl, inlineComment_eq]
  · intro c hc
    rw [String.toList_ofList] at hc
    have hwritten := List.all_eq_true.1 (Base64.all_isWritten _) c hc
    refine ⟨hwritten, ?_, ?_⟩
    · intro heq
      exact absurd (heq ▸ hwritten) (by decide)
    · intro heq
      exact absurd (heq ▸ hwritten) (by decide)
  · refine ⟨_, map.toJson, by rw [String.toList_ofList]; exact Base64.decode?_encode _, ?_, ?_⟩
    · exact string?_eq_some_iff.2 rfl
    · rw [SourceMap.ofJson?_toJson, if_pos hversion]

end Respell
