import ModuleGraph.CommandLine.Run
import ModuleGraph.Proofs.Json.Writing
import ModuleGraph.Proofs.Path.Map

set_option autoImplicit false

/-! # Graphs are read back as they were written

The maps and sets of a graph list their paths in ascending order (`Graph.IsOrdered`), and setting
the entries of an ascending map one after the other gives this map, with the same spellings
(`PathMap.ofList_eq_self`). So decoding the JSON of a graph gives the graph (`Graph.decode_toJson`),
and with it decoding what is printed, in either layout (`output_round_trip`).
-/

namespace ModuleGraph

open Json

/-! ## Ascending entries -/

namespace PathMap

variable {α : Type}

/-- A path behind all others is put at the end. -/
theorem insert_of_lt {m : PathMap α} {p : Path} (h : ∀ k ∈ m.keys, k.compare p = .lt) (a : α) :
    m.insert p a = m ++ [(p, a)] := by
  unfold insert
  induction m with
  | nil => rfl
  | cons entry rest ih =>
      obtain ⟨q, b⟩ := entry
      have hq : p.compare q = .gt := Std.OrientedCmp.gt_of_lt (h q List.mem_cons_self)
      have hrest : ∀ k ∈ keys rest, k.compare p = .lt := fun k hk => h k (List.mem_cons_of_mem _ hk)
      rw [alter, hq]
      simp only
      rw [ih hrest, List.cons_append]

/-- Setting ascending entries one after the other appends them. -/
theorem foldl_insert_of_ascending {entries m : PathMap α} (h : Ascending (m ++ entries).keys) :
    entries.foldl (fun m entry => insert m entry.1 entry.2) m = m ++ entries := by
  induction entries generalizing m with
  | nil => simp
  | cons entry rest ih =>
      obtain ⟨p, a⟩ := entry
      have hlt : ∀ k ∈ m.keys, k.compare p = .lt := by
        intro k hk
        have hsplit : (m ++ (p, a) :: rest).keys = m.keys ++ p :: keys rest := by simp [keys]
        rw [hsplit] at h
        exact (List.pairwise_append.mp h).2.2 k hk p List.mem_cons_self
      rw [List.foldl_cons, insert_of_lt hlt]
      have happend : (m ++ [(p, a)]) ++ rest = m ++ (p, a) :: rest := by simp
      rw [ih (by rwa [happend]), happend]

theorem ofList_eq_self {m : PathMap α} (h : Ascending m.keys) : ofList m = m := by
  have hfold : m.foldl (fun m entry => insert m entry.1 entry.2) [] = [] ++ m :=
    foldl_insert_of_ascending h
  exact hfold

end PathMap

namespace PathSet

theorem insert_of_lt {s : PathSet} {p : Path} (h : ∀ q ∈ s, q.compare p = .lt) :
    s.insert p = s ++ [p] := by
  induction s with
  | nil => rfl
  | cons q rest ih =>
      have hq : p.compare q = .gt := Std.OrientedCmp.gt_of_lt (h q List.mem_cons_self)
      rw [insert, hq]
      simp only
      rw [ih fun r hr => h r (List.mem_cons_of_mem _ hr), List.cons_append]

theorem foldl_insert_of_ascending {ps s : PathSet} (h : Ascending (s ++ ps)) :
    ps.foldl insert s = s ++ ps := by
  induction ps generalizing s with
  | nil => simp
  | cons p rest ih =>
      have hlt : ∀ q ∈ s, q.compare p = .lt := fun q hq =>
        (List.pairwise_append.mp h).2.2 q hq p List.mem_cons_self
      have happend : (s ++ [p]) ++ rest = s ++ p :: rest := by simp
      rw [List.foldl_cons, insert_of_lt hlt, ih (by rwa [happend]), happend]

theorem ofList_eq_self {s : PathSet} (h : Ascending s) : ofList s = s := by
  have hfold : s.foldl insert [] = [] ++ s := foldl_insert_of_ascending h
  exact hfold

end PathSet

/-! ## Decoding what was encoded -/

theorem decodeList_texts (want : String) (items : List String) :
    decodeList (decodeText want) (Value.texts items).toDocument = .ok items := by
  have hitems : decodeItems (decodeText want) (Value.itemsToDocuments (items.map .text))
      = .ok items := by
    induction items with
    | nil => rfl
    | cons s rest ih =>
        rw [List.map_cons, Value.itemsToDocuments, decodeItems, ih]
        rfl
  rw [Value.texts, Value.toDocument, decodeList, hitems]
  rfl

theorem decodeTexts_texts (items : List String) :
    decodeTexts (Value.texts items).toDocument = .ok items := decodeList_texts "a string" items

theorem decodePathMap_toJson {m : PathMap (List String)} (h : Ascending m.keys) :
    decodePathMap (pathMapToJson m).toDocument = .ok m := by
  have hmembers : decodeMembers decodeTexts (Value.membersToDocuments
      (m.map fun entry => (entry.1.text, Value.texts entry.2)))
        = .ok (m.map fun entry => (entry.1.text, entry.2)) := by
    clear h
    induction m with
    | nil => rfl
    | cons entry rest ih =>
        rw [List.map_cons, Value.membersToDocuments, decodeMembers, decodeTexts_texts, ih]
        rfl
  have hpaths : (m.map fun entry => (entry.1.text, entry.2)).map
      (fun entry => ((⟨entry.1⟩ : Path), entry.2)) = m := by
    rw [List.map_map]
    exact List.map_id m
  rw [pathMapToJson, Value.toDocument, decodePathMap, decodeMap, hmembers]
  show Except.ok (PathMap.ofList _) = _
  rw [hpaths, PathMap.ofList_eq_self h]

theorem decodePathSet_toJson {s : PathSet} (h : Ascending s) :
    decodePathSet (pathsToJson s).toDocument = .ok s := by
  have hitems := decodeList_texts "path string" (s.map (·.text))
  have hpaths : (s.map (·.text)).map Path.mk = s := by
    rw [List.map_map]
    exact List.map_id s
  rw [decodePathSet, pathsToJson, hitems]
  show Except.ok (PathSet.ofList _) = _
  rw [hpaths, PathSet.ofList_eq_self h]

/-- A member with the name of a field that was not met before sets this field. -/
theorem decodeFields_cons {ρ : Type} {fields : List (RecordField ρ)} {field : RecordField ρ}
    {seen : List String} {key : String} {d : Document} {r r' : ρ}
    (hfield : fields.find? (·.name == key) = some field) (hseen : seen.contains key = false)
    (hset : field.set d r = .ok r') (rest : List (Reading × Document)) :
    decodeFields fields seen r ((.ok key, d) :: rest) = decodeFields fields (key :: seen) r' rest := by
  have hkey : liftFault (Except.ok key) = .ok key := rfl
  rw [decodeFields, hkey]
  simp only [bind, Except.bind, hfield, hseen, Bool.false_eq_true, if_false, hset]

theorem RecordField.set_of {ρ α : Type} {name : String} {decode : Decoder α} {store : α → ρ → ρ}
    {d : Document} {a : α} (h : decode d = .ok a) (r : ρ) :
    (RecordField.of name decode store).set d r = .ok (store a r) := by
  simp [RecordField.of, h, Except.map]

/-- A graph as walks build it: its maps and its set list their paths in ascending order. -/
structure Graph.IsOrdered (g : Graph) : Prop where
  imports : Ascending g.imports.keys
  exports : Ascending g.exports.keys
  loadedFiles : Ascending g.loadedFiles

/-- A summary whose map and set list their paths in ascending order. -/
structure Summary.IsOrdered (s : Summary) : Prop where
  dependencies : Ascending s.dependencies.keys
  loadedFiles : Ascending s.loadedFiles

theorem Graph.decode_toJson {g : Graph} (h : g.IsOrdered) :
    Graph.decode g.toJson.toDocument = .ok g := by
  simp only [Graph.toJson, Value.toDocument, Value.membersToDocuments, Graph.decode, decodeRecord]
  rw [decodeFields_cons rfl rfl (RecordField.set_of (decodePathMap_toJson h.imports) _),
    decodeFields_cons rfl rfl (RecordField.set_of (decodePathMap_toJson h.exports) _),
    decodeFields_cons rfl rfl (RecordField.set_of (decodePathSet_toJson h.loadedFiles) _),
    decodeFields_cons rfl rfl (RecordField.set_of (decodeTexts_texts g.stats) _)]
  rfl

theorem Summary.decode_toJson {s : Summary} (h : s.IsOrdered) :
    Summary.decode s.toJson.toDocument = .ok s := by
  simp only [Summary.toJson, Value.toDocument, Value.membersToDocuments, Summary.decode,
    decodeRecord]
  rw [decodeFields_cons rfl rfl (RecordField.set_of (decodePathMap_toJson h.dependencies) _),
    decodeFields_cons rfl rfl (RecordField.set_of (decodePathSet_toJson h.loadedFiles) _)]
  rfl

theorem Graph.IsOrdered.toSummary {g : Graph} (h : g.IsOrdered) : g.toSummary.IsOrdered :=
  ⟨h.imports, h.loadedFiles⟩

/-! ## Both layouts -/

theorem faithful_pathMapToJson (m : PathMap (List String)) : (pathMapToJson m).Faithful := by
  refine Value.faithful_object fun member hmember => ?_
  obtain ⟨entry, -, rfl⟩ := List.mem_map.mp hmember
  exact Value.faithful_texts entry.2

theorem Graph.faithful_toJson (g : Graph) : g.toJson.Faithful := by
  refine Value.faithful_object fun member hmember => ?_
  simp only [List.mem_cons, List.not_mem_nil, or_false] at hmember
  rcases hmember with rfl | rfl | rfl | rfl
  · exact faithful_pathMapToJson g.imports
  · exact faithful_pathMapToJson g.exports
  · exact Value.faithful_texts _
  · exact Value.faithful_texts _

theorem Summary.faithful_toJson (s : Summary) : s.toJson.Faithful := by
  refine Value.faithful_object fun member hmember => ?_
  simp only [List.mem_cons, List.not_mem_nil, or_false] at hmember
  rcases hmember with rfl | rfl
  · exact faithful_pathMapToJson s.dependencies
  · exact Value.faithful_texts _

/-- A value that is written in either layout, with blanks after it, is decoded as the value is. -/
theorem decodeWhole_of_faithful {α : Type} {decode : Decoder α} {v : Value} {a : α}
    (hv : v.Faithful) (ha : decode v.toDocument = .ok a) {gap : List Char}
    (hgap : Document.Blank gap) :
    ∀ write ∈ [Value.compact, Value.pretty],
      decodeWhole decode (write v ++ String.ofList gap) = .ok a := by
  intro write hwrite
  have hread : Document.read (write v ++ String.ofList gap) = (v.toDocument, none) := by
    simp only [List.mem_cons, List.not_mem_nil, or_false] at hwrite
    rcases hwrite with rfl | rfl
    · exact hv.read_compact hgap
    · exact hv.read_pretty hgap
  rw [decodeWhole, hread]
  show (decode v.toDocument >>= fun a => raise? none >>= fun _ => pure a) = _
  rw [ha]
  rfl

theorem decodeWhole_write {α : Type} {decode : Decoder α} {v : Value} {a : α} (hv : v.Faithful)
    (ha : decode v.toDocument = .ok a) :
    ∀ write ∈ [Value.compact, Value.pretty], decodeWhole decode (write v) = .ok a := by
  intro write hwrite
  have hdecode := decodeWhole_of_faithful hv ha Document.blank_nil write hwrite
  rwa [String.ofList_nil, String.append_empty] at hdecode

/-- What a run prints, a line feed at its end, is decoded as the value that it prints. -/
theorem decodeWhole_result {α : Type} {decode : Decoder α} (g : Graph) (mode : OutputMode) {a : α}
    (hv : (g.toOutput mode).toJson.Faithful)
    (ha : decode (g.toOutput mode).toJson.toDocument = .ok a) (compact : Bool) :
    decodeWhole decode (Outcome.finished g mode compact).result = .ok a := by
  have hfeed : Document.Blank ['\n'] := by simp [Document.Blank, Document.isBlank]
  have hwrite := decodeWhole_of_faithful hv ha hfeed
  cases compact with
  | true => exact hwrite Value.compact (by simp)
  | false => exact hwrite Value.pretty (by simp)

/-- **Graphs and summaries are read back as they were written.** In either layout, the text of a
graph or a summary decodes as this graph or summary, spellings included, and is written again as
the same text; so does what a run prints. The summary of a graph is written as its imports, under
another name, and its loaded files. -/
theorem output_round_trip {g : Graph} {s : Summary} (hg : g.IsOrdered) (hs : s.IsOrdered) :
    (∀ write ∈ [Value.compact, Value.pretty],
      decodeWhole Graph.decode (write g.toJson) = .ok g ∧
      (decodeWhole Graph.decode (write g.toJson)).map (fun g' => write g'.toJson)
        = .ok (write g.toJson) ∧
      decodeWhole Summary.decode (write s.toJson) = .ok s ∧
      (decodeWhole Summary.decode (write s.toJson)).map (fun s' => write s'.toJson)
        = .ok (write s.toJson)) ∧
    (∀ compact, decodeWhole Graph.decode (Outcome.finished g .full compact).result = .ok g ∧
      decodeWhole Summary.decode (Outcome.finished g .dependencies compact).result
        = .ok g.toSummary) ∧
    ∃ imports loadedFiles, (g.toOutput .full).toJson.get? "imports" = some imports ∧
      (g.toOutput .full).toJson.get? "loadedFiles" = some loadedFiles ∧
      (g.toOutput .dependencies).toJson
        = .object [("dependencies", imports), ("loadedFiles", loadedFiles)] := by
  refine ⟨fun write hwrite => ?_, fun compact => ⟨?_, ?_⟩, ?_⟩
  · have hgraph := decodeWhole_write g.faithful_toJson (Graph.decode_toJson hg) write hwrite
    have hsummary := decodeWhole_write s.faithful_toJson (Summary.decode_toJson hs) write hwrite
    exact ⟨hgraph, by rw [hgraph]; rfl, hsummary, by rw [hsummary]; rfl⟩
  · exact decodeWhole_result g .full g.faithful_toJson (Graph.decode_toJson hg) compact
  · exact decodeWhole_result g .dependencies g.toSummary.faithful_toJson
      (Summary.decode_toJson hg.toSummary) compact
  · exact ⟨pathMapToJson g.imports, pathsToJson g.loadedFiles, rfl, rfl, rfl⟩

/-- A graph with two keys whose order as paths is not that of their texts, and with quotes,
backslashes and control characters in all that it names. -/
def Graph.sampleQuoted : Graph where
  imports := [(⟨"/a/\"b\"\\"⟩, ["default", "x\n\x01"]), (⟨"/a-b"⟩, [])]
  exports := [(⟨"/a//./é\x7f.js"⟩, ["y", "y"])]
  loadedFiles := [⟨"/a//./é\x7f.js"⟩]
  stats := ["Failed to parse /c.jsx: \t\x08\x0c\r"]

theorem Graph.isOrdered_sampleQuoted : Graph.sampleQuoted.IsOrdered := by
  refine ⟨?_, ?_, ?_⟩
  · show List.Pairwise _ [_, _]
    rw [List.pairwise_pair]
    decide
  · exact List.pairwise_singleton _ _
  · exact List.pairwise_singleton _ _

theorem output_round_trip_sample :
    Graph.sampleQuoted.IsOrdered ∧ Graph.sampleQuoted.toSummary.IsOrdered ∧
    decodeWhole Graph.decode Graph.sampleQuoted.toJson.pretty = .ok Graph.sampleQuoted ∧
    decodeWhole Summary.decode Graph.sampleQuoted.toSummary.toJson.compact
      = .ok Graph.sampleQuoted.toSummary := by
  have hg := Graph.isOrdered_sampleQuoted
  have hround := (output_round_trip hg hg.toSummary).1
  exact ⟨hg, hg.toSummary, (hround Value.pretty (by simp)).1, (hround Value.compact (by simp)).2.2.1⟩

end ModuleGraph
