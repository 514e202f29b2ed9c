import Unalias.Proofs.Extends

/-! # Reading the declared aliases

`compilerOptions.paths` is an object from alias patterns to lists of candidate locations, and
the order of its members is the priority of the aliases. The reader keeps each pattern where it
is first declared; a pattern declared again keeps that place and takes the candidates declared
last (`ProjectDocument.declaredMappings`), which a map from patterns to candidates would lose.

The candidates of a member are read into strings by the JSON library, taken here as any decoder
that does what the library documents (`ProjectDocument.StringsDecoder.Documented`): a member
reads when its value is `null` or an array whose items are strings or `null`, a `null` item
giving the empty text as any JSON `null` read into a string does. Any other member makes the
whole object fail, and so does any value other than an object, except `null`, which declares no
aliases at all (`ProjectDocument.readPaths_eq_declared`).
-/

namespace Unalias

namespace JsonValue

/-- Whether a value reads as one candidate location: a string, or `null`. -/
def isText : JsonValue → Bool
  | .string _ => true
  | .null => true
  | _ => false

/-- The candidate location a value reads as: a string as it is, `null` as the empty text. -/
def text : JsonValue → String
  | .string s => s
  | _ => ""

/-- Whether a value reads as a list of candidates: `null`, or an array of texts. -/
def isCandidateList : JsonValue → Bool
  | .null => true
  | .array items => items.all isText
  | _ => false

/-- The candidates a list of candidates gives: none for `null`. -/
def candidates : JsonValue → Option (List String)
  | .array items => some (items.map text)
  | _ => none

end JsonValue

section Except

variable {α β ε : Type}

theorem mapM_error_of_mem {f : α → Except ε β} :
    ∀ {xs : List α}, (∃ x ∈ xs, ∃ e, f x = .error e) → ∃ e, xs.mapM f = .error e
  | [], ⟨_, hx, _⟩ => absurd hx List.not_mem_nil
  | x :: xs, ⟨y, hy, e, he⟩ => by
    rw [List.mapM_cons]
    cases hx : f x with
    | error e' => exact ⟨e', rfl⟩
    | ok b =>
      rcases List.mem_cons.mp hy with rfl | hy
      · rw [he] at hx
        cases hx
      · obtain ⟨e', he'⟩ := mapM_error_of_mem ⟨y, hy, e, he⟩
        exact ⟨e', by rw [Except.ok_bind, he']; rfl⟩

variable {step : β → α → Except ε β}

/-- A fold whose every step succeeds is the plain fold of what the steps give. -/
theorem foldlM_eq_ok_foldl {g : β → α → β} :
    ∀ {xs : List α} {b : β}, (∀ c, ∀ x ∈ xs, step c x = .ok (g c x)) →
      xs.foldlM step b = .ok (xs.foldl g b)
  | [], _, _ => rfl
  | x :: xs, b, h => by
    rw [List.foldlM_cons, h b x List.mem_cons_self, Except.ok_bind]
    exact foldlM_eq_ok_foldl fun c y hy => h c y (List.mem_cons_of_mem x hy)

/-- A fold over an item whose step fails from every accumulator fails. -/
theorem foldlM_error_of_mem :
    ∀ {xs : List α} {b : β}, (∃ x ∈ xs, ∀ c, ∃ e, step c x = .error e) →
      ∃ e, xs.foldlM step b = .error e
  | [], _, ⟨_, hx, _⟩ => absurd hx List.not_mem_nil
  | x :: xs, b, ⟨y, hy, hfail⟩ => by
    rw [List.foldlM_cons]
    cases hx : step b x with
    | error e => exact ⟨e, rfl⟩
    | ok c =>
      rcases List.mem_cons.mp hy with rfl | hy
      · obtain ⟨e, he⟩ := hfail b
        rw [he] at hx
        cases hx
      · rw [Except.ok_bind]
        exact foldlM_error_of_mem ⟨y, hy, hfail⟩

end Except

namespace ProjectDocument

/-- The candidates of the last member named `k`. -/
def lastCandidates (members : List (String × JsonValue)) (k : String) : Option (List String) :=
  (members.reverse.lookup k).bind JsonValue.candidates

/-- The aliases an object of candidate lists declares: one mapping for each name, in the order
    the names first appear, with the candidates of the last member of that name. -/
def declaredMappings (members : List (String × JsonValue)) : List PathMapping :=
  (members.map Prod.fst).eraseDups.map fun k => ⟨k, lastCandidates members k⟩

/-- What a `paths` value declares: an object whose members are all candidate lists declares its
    mappings, `null` declares none, and any other value is no declaration. -/
def pathsDeclared : JsonValue → Option (Option (List PathMapping))
  | .null => some none
  | .object members =>
    if members.all (·.2.isCandidateList) then some (some (declaredMappings members)) else none
  | _ => none

theorem readString_of_isText {v : JsonValue} (h : v.isText = true) :
    readString v = .ok v.text := by
  cases v <;> simp_all [JsonValue.isText, JsonValue.text, readString]

theorem readString_error {v : JsonValue} (h : v.isText = false) :
    ∃ e, readString v = .error e := by
  cases v <;> simp_all [JsonValue.isText, readString]

theorem readStrings_of_isCandidateList {v : JsonValue} (h : v.isCandidateList = true) :
    readStrings v = .ok v.candidates := by
  cases v with
  | null => rfl
  | array items =>
    have hitems : ∀ x ∈ items, readString x = .ok x.text := fun x hx =>
      readString_of_isText (List.all_eq_true.mp h x hx)
    simp only [readStrings, mapM_eq_ok_map hitems]
    rfl
  | _ => simp [JsonValue.isCandidateList] at h

theorem readStrings_error {v : JsonValue} (h : v.isCandidateList = false) :
    ∃ e, readStrings v = .error e := by
  cases v with
  | null => simp [JsonValue.isCandidateList] at h
  | array items =>
    -- an item that is no text fails the whole array
    obtain ⟨x, hx, hnot⟩ := List.all_eq_false.mp h
    obtain ⟨e, he⟩ := mapM_error_of_mem (f := readString) ⟨x, hx, readString_error (by simpa using hnot)⟩
    exact ⟨e, by simp only [readStrings, he]; rfl⟩
  | _ => exact ⟨_, rfl⟩

/-- What the JSON library documents of reading a value into a list of strings: `null` gives none,
    an array of strings and `null`s gives its strings, a `null` item reading as the empty string
    as a `null` read into any string does, and every other value fails. -/
structure StringsDecoder.Documented (dec : StringsDecoder) : Prop where
  candidateList : ∀ {v : JsonValue}, v.isCandidateList = true → dec v = .ok v.candidates
  other : ∀ {v : JsonValue}, v.isCandidateList = false → ∃ e, dec v = .error e

/-- The decoder the program runs with does what the library documents. -/
theorem readStrings_documented : StringsDecoder.Documented readStrings :=
  ⟨readStrings_of_isCandidateList, readStrings_error⟩

theorem lastCandidates_concat (pre : List (String × JsonValue)) (k k' : String) (v : JsonValue) :
    lastCandidates (pre ++ [(k, v)]) k' = if k' = k then v.candidates else lastCandidates pre k' := by
  by_cases h : k' = k
  · subst h
    simp [lastCandidates]
  · have hne : (k' == k) = false := by simpa using h
    simp [lastCandidates, List.lookup_cons, hne, h]

/-- One more member: a new name goes last with its candidates, a name seen before keeps its
    place and takes the member's candidates. -/
theorem declaredMappings_concat (pre : List (String × JsonValue)) (k : String) (v : JsonValue) :
    declaredMappings (pre ++ [(k, v)]) = addMapping (declaredMappings pre) ⟨k, v.candidates⟩ := by
  unfold declaredMappings addMapping
  simp only [List.map_append, List.map_cons, List.map_nil]
  rw [List.eraseDups_append]
  by_cases hk : k ∈ pre.map Prod.fst
  · have hany : ((pre.map Prod.fst).eraseDups.map fun k' =>
        (⟨k', lastCandidates pre k'⟩ : PathMapping)).any (·.pattern == k) = true := by
      simpa [List.mem_eraseDups] using hk
    have hgone : ([k].removeAll (pre.map Prod.fst)).eraseDups = [] := by
      simp [List.removeAll, hk]
    rw [if_pos hany, hgone, List.append_nil, List.map_map]
    apply List.map_congr_left
    intro k' _
    by_cases h : k' = k <;> simp [lastCandidates_concat, h]
  · have hnone : ((pre.map Prod.fst).eraseDups.map fun k' =>
        (⟨k', lastCandidates pre k'⟩ : PathMapping)).any (·.pattern == k) = false := by
      rw [List.any_eq_false]
      intro m hm
      obtain ⟨k', hk', rfl⟩ := List.mem_map.mp hm
      simp only [beq_iff_eq]
      rintro rfl
      exact hk (List.mem_eraseDups.mp hk')
    have hnew : ([k].removeAll (pre.map Prod.fst)).eraseDups = [k] := by
      simp [List.removeAll, hk, List.eraseDups_cons]
    rw [if_neg (by simp [hnone]), hnew, List.map_append]
    congr 1
    · apply List.map_congr_left
      intro k' hk'
      -- a name declared before is not the new one
      have hne : k' ≠ k := fun h => hk (h ▸ List.mem_eraseDups.mp hk')
      simp [lastCandidates_concat, hne]
    · simp [lastCandidates_concat]

/-- Taking the members in one after another, after those of `pre`, declares the mappings of
    all of them. -/
theorem foldl_addMapping :
    ∀ (members pre : List (String × JsonValue)),
      members.foldl (fun ms m => addMapping ms ⟨m.1, m.2.candidates⟩) (declaredMappings pre) =
        declaredMappings (pre ++ members)
  | [], pre => by rw [List.foldl_nil, List.append_nil]
  | m :: members, pre => by
    rw [List.foldl_cons, ← declaredMappings_concat, foldl_addMapping members (pre ++ [m]),
      List.append_assoc, List.singleton_append]

/-- Reading `paths` succeeds exactly on a declaration and gives what it declares: for an object
    of candidate lists, one mapping per distinct name, in the order names first appear, with the
    candidates of the name's last member; nothing for `null`. -/
theorem readPaths_eq_declared {dec : StringsDecoder} (hdec : StringsDecoder.Documented dec)
    (v : JsonValue) : (readPaths dec v).toOption = pathsDeclared v := by
  cases v with
  | object members =>
    by_cases h : members.all (·.2.isCandidateList) = true
    · have hsteps : ∀ (ms : List PathMapping), ∀ m ∈ members,
          (do
            let cs ← (dec m.2).mapError fun e => "compilerOptions.paths[" ++
              Bytes.decode (Text.quote (Bytes.ofString m.1)) ++ "]: " ++ e
            pure (addMapping ms ⟨m.1, cs⟩) : Except String (List PathMapping)) =
            .ok (addMapping ms ⟨m.1, m.2.candidates⟩) := by
        intro ms m hm
        rw [hdec.candidateList (List.all_eq_true.mp h m hm)]
        rfl
      rw [readPaths, foldlM_eq_ok_foldl hsteps]
      have hfold := foldl_addMapping members []
      rw [List.nil_append] at hfold
      rw [show ([] : List PathMapping) = declaredMappings [] from rfl, hfold]
      simp [pathsDeclared, h, Except.toOption, Except.map]
    · -- a member that is no candidate list fails its step from every accumulator
      obtain ⟨m, hm, hnot⟩ := List.all_eq_false.mp (Bool.eq_false_iff.mpr h)
      obtain ⟨e, he⟩ := hdec.other (v := m.2) (by simpa using hnot)
      obtain ⟨e', he'⟩ : ∃ e', members.foldlM (fun ms (p : String × JsonValue) =>
          (do
            let cs ← (dec p.2).mapError fun e => "compilerOptions.paths[" ++
              Bytes.decode (Text.quote (Bytes.ofString p.1)) ++ "]: " ++ e
            pure (addMapping ms ⟨p.1, cs⟩) : Except String (List PathMapping))) [] = .error e' :=
        foldlM_error_of_mem ⟨m, hm, fun _ => ⟨_, by rw [he]; rfl⟩⟩
      rw [readPaths, he']
      simp [pathsDeclared, h, Except.toOption, Except.map]
  | null => rfl
  | bool b => rfl
  | number n => rfl
  | string s => rfl
  | array items => rfl

/-- A pattern declared twice, with a `null` pattern between: the first keeps its place and takes
    its last list. -/
theorem readPaths_declared_twice :
    StringsDecoder.Documented readStrings ∧
      (readPaths readStrings (.object [("@/*", .array [.string "src/*"]), ("#/*", .null),
          ("@/*", .array [.string "lib/*", .null])])).toOption =
        some (some [⟨"@/*", some ["lib/*", ""]⟩, ⟨"#/*", none⟩]) :=
  ⟨readStrings_documented, (readPaths_eq_declared readStrings_documented _).trans (by decide)⟩

/-- An array with a `null` item is no array of strings, yet it reads: the `null` gives the empty
    text. -/
theorem readPaths_null_item :
    readPaths readStrings (.object [("@/*", .array [.null])]) = .ok (some [⟨"@/*", some [""]⟩]) :=
  rfl

end ProjectDocument

end Unalias
