import Elykseer.Foundation.Xml

/-!
# Reading XML documents

A small reader for the documents of `Elykseer.Foundation.Xml`, and the proof that it
reads them: `parse_reads`.
-/

set_option autoImplicit false

namespace Elykseer.Foundation.Xml

/-! ## Entities -/

/-- The predefined entities are decoded. -/
def unescape : Text → Text
  | 38 :: 97 :: 109 :: 112 :: 59 :: s => 38 :: unescape s
  | 38 :: 108 :: 116 :: 59 :: s => 60 :: unescape s
  | 38 :: 103 :: 116 :: 59 :: s => 62 :: unescape s
  | 38 :: 113 :: 117 :: 111 :: 116 :: 59 :: s => 34 :: unescape s
  | 38 :: 97 :: 112 :: 111 :: 115 :: 59 :: s => 39 :: unescape s
  | c :: s => c :: unescape s
  | [] => []

/-- A character other than `&` stands for itself. -/
theorem unescape_cons {c : UInt8} (hc : c ≠ 38) (s : Text) : unescape (c :: s) = c :: unescape s := by
  rw [unescape.eq_def]
  split
  all_goals first
    | next h => exact absurd (List.cons.inj h).1 hc
    | next h => rw [(List.cons.inj h).1, (List.cons.inj h).2]
    | next h => cases h

/-- Unescaping undoes escaping. -/
theorem unescape_escape (s : Text) : unescape (escape s) = s := by
  induction s with
  | nil => rfl
  | cons c s ih =>
    rw [escape, List.flatMap_cons, ← escape, escapeChar]
    split
    · next h => rw [h]; exact congrArg (38 :: ·) ih
    · split
      · next h => rw [h]; exact congrArg (60 :: ·) ih
      · split
        · next h => rw [h]; exact congrArg (62 :: ·) ih
        · split
          · next h => rw [h]; exact congrArg (34 :: ·) ih
          · split
            · next h => rw [h]; exact congrArg (39 :: ·) ih
            · next hamp _ _ _ _ => rw [List.singleton_append, unescape_cons hamp, ih]

/-- Escaping leaves something of a text that is not empty. -/
theorem escape_ne_nil {s : Text} (h : s ≠ []) : escape s ≠ [] := by
  obtain ⟨c, t, rfl⟩ := List.exists_cons_of_ne_nil h
  have hc : escapeChar c ≠ [] := by
    unfold escapeChar
    split_ifs <;> exact List.cons_ne_nil _ _
  rw [escape, List.flatMap_cons]
  exact List.append_ne_nil_of_left_ne_nil hc _

/-! ## The reader -/

/-- What stands before the byte `stop`, and what behind it. -/
def upTo (stop : UInt8) (s : Text) : Text × Text :=
  (s.takeWhile (· ≠ stop), (s.dropWhile (· ≠ stop)).tail)

/-- The attributes of a start tag, up to its end. -/
def parseAttributes : ℕ → Text → Option (List (Text × Text) × Text)
  | _, 62 :: s => some ([], s)
  | fuel + 1, 32 :: s =>
    let name := upTo 61 s
    let value := upTo 34 name.2.tail
    match parseAttributes fuel value.2 with
    | none => none
    | some (attributes, s') => some ((name.1, unescape value.1) :: attributes, s')
  | _, _ => none

/-- A start tag behind its first character. -/
def parseTag (s : Text) : Option (Text × List (Text × Text) × Text) :=
  match parseAttributes s.length (s.dropWhile isLetter) with
  | none => none
  | some (attributes, s') => some (s.takeWhile isLetter, attributes, s')

/-- The content of an element and its end tag, added to the tree `pt`. -/
def parseContents : ℕ → Ptree → Text → Option (Ptree × Text)
  | 0, _, _ => none
  | _, _, [] => none
  | _, pt, 60 :: 47 :: s => some (pt, (upTo 62 s).2)
  | fuel + 1, pt, 60 :: s =>
    match parseTag s with
    | none => none
    | some (name, attributes, s') =>
      match parseContents fuel (ofAttributes attributes) s' with
      | none => none
      | some (child, s'') => parseContents fuel (pt.push name child) s''
  | fuel + 1, pt, s =>
    parseContents fuel (pt.append (collapse (unescape (s.takeWhile (· ≠ 60)))))
      (s.dropWhile (· ≠ 60))

/-- A document: behind the declaration and the comment, the tag and content of the root. -/
def parse (s : Text) : Except Text Ptree :=
  let behind := (upTo 62 (upTo 62 s).2).2
  match parseTag (upTo 60 behind).2 with
  | none => .error []
  | some (name, attributes, s') =>
    match parseContents s'.length (ofAttributes attributes) s' with
    | none => .error []
    | some (child, _) => .ok (Ptree.empty.push name child)

/-! ## Documents are read -/

/-- The longest prefix with a property ends where the property does. -/
theorem takeWhile_append_stop {p : UInt8 → Bool} {a s : Text} (ha : ∀ c ∈ a, p c = true)
    (hs : ∀ c ∈ s.head?, p c = false) :
    (a ++ s).takeWhile p = a ∧ (a ++ s).dropWhile p = s := by
  have hstop : s.takeWhile p = [] ∧ s.dropWhile p = s := by
    cases s with
    | nil => exact ⟨rfl, rfl⟩
    | cons c s =>
      have hc := hs c rfl
      rw [List.takeWhile_cons_of_neg (by simp [hc]), List.dropWhile_cons_of_neg (by simp [hc])]
      exact ⟨rfl, rfl⟩
  rw [List.takeWhile_append_of_pos ha, List.dropWhile_append_of_pos ha, hstop.1, hstop.2,
    List.append_nil]
  exact ⟨rfl, rfl⟩

/-- Reading up to a character gives what is in front of it. -/
theorem upTo_append {stop : UInt8} {a : Text} (ha : stop ∉ a) (s : Text) :
    upTo stop (a ++ stop :: s) = (a, s) := by
  obtain ⟨htake, hdrop⟩ := takeWhile_append_stop (p := fun c => c ≠ stop) (a := a)
    (s := stop :: s) (fun c hc => decide_eq_true fun heq => ha (heq ▸ hc))
    (by simp)
  unfold upTo
  rw [htake, hdrop, List.tail_cons]

/-- A name has letters only. -/
theorem IsName.not_mem {name : Text} (h : IsName name) {c : UInt8} (hc : isLetter c = false) :
    c ∉ name := by
  intro hmem
  rw [h.2 c hmem] at hc
  cases hc

/-- The attributes end at `>`. -/
theorem parseAttributes_end (fuel : ℕ) (s : Text) :
    parseAttributes fuel (62 :: s) = some ([], s) := by
  cases fuel <;> rfl

/-- Written attributes are read back. -/
theorem parseAttributes_render {attributes : List (Text × Text)}
    (h : ∀ a ∈ attributes, IsName a.1) {fuel : ℕ}
    (hfuel : (renderAttributes attributes).length ≤ fuel) (s : Text) :
    parseAttributes fuel (renderAttributes attributes ++ 62 :: s) = some (attributes, s) := by
  induction attributes generalizing fuel with
  | nil => exact parseAttributes_end fuel s
  | cons a attributes ih =>
    have hrender : renderAttributes (a :: attributes) = 32 :: (a.1 ++ 61 :: 34 ::
        (escape a.2 ++ 34 :: renderAttributes attributes)) := by
      simp [renderAttributes]
    rw [hrender] at hfuel ⊢
    cases fuel with
    | zero => simp at hfuel
    | succ fuel =>
      have hname : upTo 61 (a.1 ++ 61 :: 34 :: (escape a.2 ++ 34 :: (renderAttributes attributes ++
          62 :: s))) = (a.1, 34 :: (escape a.2 ++ 34 :: (renderAttributes attributes ++ 62 :: s))) :=
        upTo_append ((h a List.mem_cons_self).not_mem (by decide)) _
      have hvalue : upTo 34 (escape a.2 ++ 34 :: (renderAttributes attributes ++ 62 :: s)) =
          (escape a.2, renderAttributes attributes ++ 62 :: s) :=
        upTo_append (fun hmem => (mem_escape hmem).1 rfl) _
      have hrest : (renderAttributes attributes).length ≤ fuel := by
        simp only [List.length_cons, List.length_append] at hfuel
        omega
      rw [List.cons_append, List.append_assoc, List.cons_append, List.cons_append,
        List.append_assoc, List.cons_append, parseAttributes]
      rw [hname]
      dsimp only [List.tail_cons]
      rw [hvalue, ih (fun b hb => h b (List.mem_cons_of_mem _ hb)) hrest, unescape_escape]

/-- A written tag is read back. -/
theorem parseTag_render {name : Text} (hname : IsName name) {attributes : List (Text × Text)}
    (h : ∀ a ∈ attributes, IsName a.1) (s : Text) :
    parseTag (name ++ (renderAttributes attributes ++ 62 :: s)) = some (name, attributes, s) := by
  have hstop : ∀ c ∈ (renderAttributes attributes ++ 62 :: s).head?, isLetter c = false := by
    cases attributes with
    | nil =>
      intro c hc
      obtain rfl : (62 : UInt8) = c := Option.some.inj hc
      decide
    | cons a attributes =>
      intro c hc
      obtain rfl : (32 : UInt8) = c := Option.some.inj hc
      decide
  obtain ⟨htake, hdrop⟩ := takeWhile_append_stop hname.2 hstop
  unfold parseTag
  rw [htake, hdrop, parseAttributes_render h]
  simp only [List.length_append]
  omega

/-- The contents end at the closing tag. -/
theorem parseContents_end (fuel : ℕ) (pt : Ptree) {name : Text} (hname : IsName name) (s : Text) :
    parseContents (fuel + 1) pt (60 :: 47 :: (name ++ 62 :: s)) = some (pt, s) := by
  rw [parseContents, upTo_append (hname.not_mem (by decide))]
  exact Nat.succ_ne_zero fuel

/-- An opening tag starts a child. -/
theorem parseContents_child (fuel : ℕ) (pt : Ptree) {c : UInt8} (hc : c ≠ 47) (s : Text) :
    parseContents (fuel + 1) pt (60 :: c :: s) =
      match parseTag (c :: s) with
      | none => none
      | some (name, attributes, s') =>
        match parseContents fuel (ofAttributes attributes) s' with
        | none => none
        | some (child, s'') => parseContents fuel (pt.push name child) s'' := by
  rw [parseContents]
  intro t ht
  exact hc (List.cons.inj ht).1

/-- Characters up to the next tag are text. -/
theorem parseContents_text (fuel : ℕ) (pt : Ptree) {c : UInt8} (hc : c ≠ 60) (s : Text) :
    parseContents (fuel + 1) pt (c :: s) =
      parseContents fuel (pt.append (collapse (unescape ((c :: s).takeWhile (· ≠ 60)))))
        ((c :: s).dropWhile (· ≠ 60)) := by
  rw [parseContents]
  · simp
  · intro t ht
    exact hc (List.cons.inj ht).1
  · intro t ht
    exact hc (List.cons.inj ht).1

/-- A name starts with a letter. -/
theorem IsName.head {name : Text} (h : IsName name) :
    ∃ c t, name = c :: t ∧ isLetter c = true := by
  cases name with
  | nil => exact absurd rfl h.1
  | cons c t => exact ⟨c, t, rfl, h.2 c List.mem_cons_self⟩

/-- A text is read up to the next angle bracket. -/
theorem parseContents_escape {s : Text} (hs : s ≠ []) {rest : Text}
    (hrest : ∀ c ∈ rest.head?, c = 60) (fuel : ℕ) (pt : Ptree) :
    parseContents (fuel + 1) pt (escape s ++ rest) =
      parseContents fuel (pt.append (collapse s)) rest := by
  obtain ⟨htake, hdrop⟩ := takeWhile_append_stop (p := fun c => c ≠ 60) (a := escape s) (s := rest)
    (fun c hc => decide_eq_true (mem_escape hc).2.1)
    (fun c hc => decide_eq_false (not_not.mpr (hrest c hc)))
  obtain ⟨c, t, hct⟩ := List.exists_cons_of_ne_nil (escape_ne_nil hs)
  have hc : c ≠ 60 := (mem_escape (s := s) (by rw [hct]; exact List.mem_cons_self)).2.1
  rw [hct] at htake hdrop
  rw [hct, List.cons_append, parseContents_text fuel pt hc, ← List.cons_append, htake, hdrop, ← hct,
    unescape_escape]

/-- A start tag is read, and then the content of the element and what follows it. -/
theorem parseContents_element {name : Text} (hname : IsName name)
    {attributes : List (Text × Text)} (h : ∀ a ∈ attributes, IsName a.1) (fuel : ℕ) (pt : Ptree)
    (s : Text) :
    parseContents (fuel + 1) pt (60 :: (name ++ (renderAttributes attributes ++ 62 :: s))) =
      (parseContents fuel (ofAttributes attributes) s).bind fun r =>
        parseContents fuel (pt.push name r.1) r.2 := by
  obtain ⟨c, t, hc, hletter⟩ := hname.head
  have hne : c ≠ 47 := by
    rintro rfl
    exact absurd hletter (by decide)
  conv_lhs => rw [hc, List.cons_append]
  rw [parseContents_child fuel pt hne, ← List.cons_append, ← hc, parseTag_render hname h]
  dsimp only
  cases parseContents fuel (ofAttributes attributes) s <;> rfl

/-- What follows a text begins with an angle bracket. -/
theorem head_renderAll {ns : List Node} (h : ∀ m ∈ ns.head?, m.isText = false) (s : Text) :
    ∀ c ∈ (renderAll ns ++ 60 :: s).head?, c = 60 := by
  intro c hc
  cases ns with
  | nil => exact (Option.some.inj hc).symm
  | cons n ns =>
    cases n with
    | text t => exact absurd (h _ rfl) (by simp [Node.isText])
    | element name attributes children => exact (Option.some.inj hc).symm

/-- The content of an element is read, up to its end tag. -/
theorem parseContents_render {fuel : ℕ} {ns : List Node} (h : WellFormedAll ns)
    (hfuel : (renderAll ns).length < fuel) (pt : Ptree) {name : Text} (hname : IsName name)
    (rest : Text) :
    parseContents fuel pt (renderAll ns ++ 60 :: 47 :: (name ++ 62 :: rest)) =
      some (addAll ns pt, rest) := by
  induction fuel generalizing ns pt name rest with
  | zero => omega
  | succ fuel ih =>
    induction ns generalizing pt with
    | nil => exact parseContents_end fuel pt hname rest
    | cons n ns ihns =>
      obtain ⟨hn, hnext, hns⟩ := h
      cases n with
      | text s =>
        have hrender : renderAll (.text s :: ns) ++ 60 :: 47 :: (name ++ 62 :: rest) =
            escape s ++ (renderAll ns ++ 60 :: 47 :: (name ++ 62 :: rest)) := by
          simp [renderAll, Node.render]
        have hlength : (renderAll (.text s :: ns)).length =
            (escape s).length + (renderAll ns).length := by
          simp [renderAll, Node.render]
        rw [hlength] at hfuel
        rw [hrender]
        by_cases hs : s = []
        · subst hs
          have hadd : addAll (.text [] :: ns) pt = addAll ns pt := by
            change addAll ns (pt.append (collapse [])) = addAll ns pt
            rw [show collapse [] = [] from rfl, Ptree.append_nil]
          rw [hadd]
          exact ihns hns (by omega) pt
        · have hpos : 0 < (escape s).length := List.length_pos_of_ne_nil (escape_ne_nil hs)
          rw [parseContents_escape hs (head_renderAll (hnext rfl) _)]
          exact ih hns (by omega) _ hname rest
      | element name' attributes children =>
        obtain ⟨hname', hattributes, hchildren⟩ := hn
        have hlength : (renderAll (.element name' attributes children :: ns)).length =
            (renderAll children).length + (renderAll ns).length +
              (2 * name'.length + (renderAttributes attributes).length + 5) := by
          simp only [renderAll, Node.render, List.length_append, List.length_cons, List.length_nil]
          omega
        rw [hlength] at hfuel
        have hrender : renderAll (.element name' attributes children :: ns) ++
            60 :: 47 :: (name ++ 62 :: rest) =
            60 :: (name' ++ (renderAttributes attributes ++ 62 :: (renderAll children ++
              60 :: 47 :: (name' ++ 62 :: (renderAll ns ++ 60 :: 47 :: (name ++ 62 :: rest)))))) := by
          simp [renderAll, Node.render]
        rw [hrender, parseContents_element hname' hattributes, ih hchildren (by omega) _ hname',
          Option.bind_some, ih hns (by omega) _ hname]
        rfl

/-- **Every document is read.** -/
theorem parse_readsBack (doc : Text) : ReadsBack parse doc := by
  rintro declaration comment name attributes children hdeclaration hcomment hroot rfl
  obtain ⟨hname, hattributes, hchildren⟩ := hroot
  have hdocument : document declaration comment (.element name attributes children) =
      (60 :: 63 :: (declaration ++ [63])) ++ 62 ::
        ((10 :: 60 :: 33 :: 45 :: 45 :: (comment ++ [45, 45])) ++ 62 :: ([10] ++ 60 ::
          (name ++ (renderAttributes attributes ++ 62 :: (renderAll children ++
            60 :: 47 :: (name ++ 62 :: [10])))))) := by
    simp [document, Node.render]
  have hfirst : 62 ∉ 60 :: 63 :: (declaration ++ [63]) := by simp [hdeclaration]
  have hsecond : 62 ∉ 10 :: 60 :: 33 :: 45 :: 45 :: (comment ++ [45, 45]) := by simp [hcomment]
  have hthird : 60 ∉ ([10] : Text) := by decide
  have htag := parseTag_render hname hattributes
    (renderAll children ++ 60 :: 47 :: (name ++ 62 :: [10]))
  have hfuel : (renderAll children).length <
      (renderAll children ++ 60 :: 47 :: (name ++ 62 :: [10])).length := by
    simp only [List.length_append, List.length_cons]
    omega
  have hcontents := parseContents_render hchildren hfuel (ofAttributes attributes) hname [10]
  rw [hdocument, parse, upTo_append hfirst, upTo_append hsecond, upTo_append hthird, htag]
  dsimp only
  rw [hcontents]
  rfl

/-- The parser reads back what is written. -/
theorem parse_reads : Reads parse := fun doc _ => parse_readsBack doc

end Elykseer.Foundation.Xml
