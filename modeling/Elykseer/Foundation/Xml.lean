import Mathlib.Data.List.Basic

/-!
# XML documents

Markup as a tree of text and elements, how it is written, and the property tree that is
read from it: a node for each element, with the text of the element as its data, and
the attributes below a child `<xmlattr>`.  `ReadsBack` says that a reader does this with
a document that is written, and `Reads` that it does so with all without zero bytes.
-/

set_option autoImplicit false

namespace Elykseer.Foundation.Xml

/-- A text, byte by byte. -/
abbrev Text := List UInt8

/-! ## Markup -/

/-- The five characters with a predefined entity are replaced by it. -/
def escapeChar (c : UInt8) : Text :=
  if c = 38 then [38, 97, 109, 112, 59]
  else if c = 60 then [38, 108, 116, 59]
  else if c = 62 then [38, 103, 116, 59]
  else if c = 34 then [38, 113, 117, 111, 116, 59]
  else if c = 39 then [38, 97, 112, 111, 115, 59]
  else [c]

/-- A text with the characters that are markup escaped. -/
def escape (s : Text) : Text := s.flatMap escapeChar

/-- The characters that end an attribute or start a tag are never printed as themselves. -/
theorem mem_escapeChar {a c : UInt8} (h : c ∈ escapeChar a) : c ≠ 34 ∧ c ≠ 60 ∧ c ≠ 62 := by
  have hentity : ∀ {s : Text}, (s.all fun d => d ≠ 34 ∧ d ≠ 60 ∧ d ≠ 62) = true → c ∈ s →
      c ≠ 34 ∧ c ≠ 60 ∧ c ≠ 62 :=
    fun hs hc => of_decide_eq_true (List.all_eq_true.mp hs c hc)
  unfold escapeChar at h
  split at h
  · exact hentity (by decide) h
  · split at h
    · exact hentity (by decide) h
    · split at h
      · exact hentity (by decide) h
      · split at h
        · exact hentity (by decide) h
        · split at h
          · exact hentity (by decide) h
          · next hlt hgt hquot _ =>
            rw [List.mem_singleton.mp h]
            exact ⟨hquot, hlt, hgt⟩

/-- An escaped text contains no quotation mark and no angle bracket. -/
theorem mem_escape {s : Text} {c : UInt8} (h : c ∈ escape s) : c ≠ 34 ∧ c ≠ 60 ∧ c ≠ 62 := by
  obtain ⟨a, -, ha⟩ := List.mem_flatMap.mp h
  exact mem_escapeChar ha

/-- A piece of the content of an element. -/
inductive Node
  | text (s : Text)
  | element (name : Text) (attributes : List (Text × Text)) (children : List Node)

/-- ` name="value"`, one after the other -/
def renderAttributes (attributes : List (Text × Text)) : Text :=
  attributes.flatMap fun a => 32 :: a.1 ++ 61 :: 34 :: escape a.2 ++ [34]

mutual

/-- `<name attributes>children</name>` -/
def Node.render : Node → Text
  | .text s => escape s
  | .element name attributes children =>
    60 :: name ++ renderAttributes attributes ++ 62 :: renderAll children ++
      60 :: 47 :: name ++ [62]

/-- Nodes written one after the other. -/
def renderAll : List Node → Text
  | [] => []
  | n :: ns => n.render ++ renderAll ns

end

/-- A document with a declaration, a comment and an element, each followed by a newline. -/
def document (declaration comment : Text) (root : Node) : Text :=
  60 :: 63 :: declaration ++ 63 :: 62 :: 10 ::
    60 :: 33 :: 45 :: 45 :: comment ++ 45 :: 45 :: 62 :: 10 :: root.render ++ [10]

/-- A letter. -/
def isLetter (c : UInt8) : Bool := (65 ≤ c && c ≤ 90) || (97 ≤ c && c ≤ 122)

/-- A name made of letters. -/
def IsName (name : Text) : Prop := name ≠ [] ∧ ∀ c ∈ name, isLetter c = true

instance : DecidablePred IsName := fun name =>
  decidable_of_iff (name ≠ [] ∧ name.all isLetter = true) (by simp [IsName])

/-- The piece is text. -/
def Node.isText : Node → Bool
  | .text _ => true
  | .element _ _ _ => false

mutual

/-- Names are names, and no two texts are neighbours. -/
def Node.WellFormed : Node → Prop
  | .text _ => True
  | .element name attributes children =>
    IsName name ∧ (∀ a ∈ attributes, IsName a.1) ∧ WellFormedAll children

/-- All nodes are well formed, and no two texts are neighbours. -/
def WellFormedAll : List Node → Prop
  | [] => True
  | n :: ns => n.WellFormed ∧ (n.isText = true → ∀ m ∈ ns.head?, m.isText = false) ∧
      WellFormedAll ns

end

/-- Elements, each followed by a text that separates it from the next. -/
def separate (sep : Text) (ns : List Node) : List Node := ns.flatMap fun n => [n, .text sep]

/-! ## Property trees -/

/-- A property tree. -/
inductive Ptree
  | node (data : Text) (children : List (Text × Ptree))

namespace Ptree

/-- The text of a tree. -/
def data : Ptree → Text
  | .node data _ => data

/-- The children of a tree, in order. -/
def children : Ptree → List (Text × Ptree)
  | .node _ children => children

/-- The tree without data and children. -/
def empty : Ptree := .node [] []

/-- One more child. -/
def push (pt : Ptree) (key : Text) (child : Ptree) : Ptree :=
  .node pt.data (pt.children ++ [(key, child)])

/-- More data. -/
def append (pt : Ptree) (s : Text) : Ptree := .node (pt.data ++ s) pt.children

/-- The first child with a key. -/
def find (pt : Ptree) (key : Text) : Option Ptree :=
  (pt.children.find? fun c => c.1 = key).map (·.2)

/-- The descendant at a path. -/
def getChild : Ptree → List Text → Option Ptree
  | pt, [] => some pt
  | pt, key :: path => (pt.find key).bind fun c => c.getChild path

/-- The data at a path, translated, or a default. -/
def get {α : Type*} (translate : Text → Option α) (pt : Ptree) (path : List Text) (default : α) :
    α :=
  ((pt.getChild path).bind fun c => translate c.data).getD default

/-- The text of a node. -/
@[simp] theorem data_node (s : Text) (cs : List (Text × Ptree)) : (node s cs).data = s := rfl

/-- The children of a node. -/
@[simp] theorem children_node (s : Text) (cs : List (Text × Ptree)) :
    (node s cs).children = cs := rfl

/-- Appending no text changes nothing. -/
theorem append_nil (pt : Ptree) : pt.append [] = pt := by
  cases pt
  simp [append]

end Ptree

/-- Space, tabulator, newline, carriage return. -/
def isSpace (c : UInt8) : Bool := c = 32 || c = 9 || c = 10 || c = 13

/-- White space is trimmed at both ends and collapsed to one space within. -/
def collapse (s : Text) : Text := [32].intercalate ((s.splitOnP isSpace).filter (· ≠ []))

/-- `<xmlattr>` -/
def xmlattr : Text := [60, 120, 109, 108, 97, 116, 116, 114, 62]

/-- The tree of an element with attributes only. -/
def ofAttributes (attributes : List (Text × Text)) : Ptree :=
  if attributes = [] then .empty
  else Ptree.empty.push xmlattr (.node [] (attributes.map fun a => (a.1, .node a.2 [])))

mutual

/-- What is read of a piece of the content is added to the tree of the element. -/
def Node.addTo : Node → Ptree → Ptree
  | .text s, pt => pt.append (collapse s)
  | .element name attributes children, pt =>
    pt.push name (addAll children (ofAttributes attributes))

/-- Nodes added one after the other. -/
def addAll : List Node → Ptree → Ptree
  | [], pt => pt
  | n :: ns, pt => addAll ns (n.addTo pt)

end

/-- The reader returns the tree of a document, whatever its declaration and comment say. -/
def ReadsBack {ε : Type*} (read : Text → Except ε Ptree) (doc : Text) : Prop :=
  ∀ (declaration comment name : Text) (attributes : List (Text × Text)) (children : List Node),
    62 ∉ declaration → 62 ∉ comment → (Node.element name attributes children).WellFormed →
    doc = document declaration comment (.element name attributes children) →
    read doc = .ok ((Node.element name attributes children).addTo .empty)

/-- The reader returns the tree of every document without zero bytes, at which it would stop. -/
def Reads {ε : Type*} (read : Text → Except ε Ptree) : Prop := ∀ doc, 0 ∉ doc → ReadsBack read doc

/-! ## What is read of an element -/

/-- The child that an element makes of its parent's tree. -/
def Node.tree : Node → Option (Text × Ptree)
  | .text _ => none
  | .element name attributes children => some (name, addAll children (ofAttributes attributes))

/-- A node adds its tree to the children, a text adds none. -/
theorem children_addTo (n : Node) (pt : Ptree) :
    (n.addTo pt).children = pt.children ++ n.tree.toList := by
  cases n with
  | text s => exact (List.append_nil _).symm
  | element name attributes children => rfl

/-- The children of a tree are its elements, behind those that were there before. -/
theorem children_addAll (ns : List Node) (pt : Ptree) :
    (addAll ns pt).children = pt.children ++ ns.filterMap Node.tree := by
  induction ns generalizing pt with
  | nil => exact (List.append_nil _).symm
  | cons n ns ih =>
    rw [addAll, ih, children_addTo, List.append_assoc]
    cases h : n.tree with
    | none => rw [List.filterMap_cons_none h, Option.toList_none, List.nil_append]
    | some c => rw [List.filterMap_cons_some h, Option.toList_some, List.singleton_append]

/-- The texts between nodes are not among their trees. -/
theorem filterMap_tree_separate (sep : Text) (ns : List Node) :
    (separate sep ns).filterMap Node.tree = ns.filterMap Node.tree := by
  induction ns with
  | nil => rfl
  | cons n ns ih =>
    rw [separate, List.flatMap_cons, ← separate, List.filterMap_append, ih]
    cases h : n.tree with
    | none =>
      rw [List.filterMap_cons_none h, List.filterMap_cons_none h]
      rfl
    | some c =>
      rw [List.filterMap_cons_some h, List.filterMap_cons_some h]
      rfl

/-- Nodes with a text after each are written one after the other. -/
theorem renderAll_separate (sep : Text) (ns : List Node) :
    renderAll (separate sep ns) = ns.flatMap fun n => n.render ++ escape sep := by
  induction ns with
  | nil => rfl
  | cons n ns ih =>
    rw [separate, List.flatMap_cons, ← separate, List.cons_append, List.cons_append, List.nil_append,
      renderAll, renderAll, ih, List.flatMap_cons, List.append_assoc]
    rfl

/-- Well-formed nodes with texts in between are well formed. -/
theorem wellFormedAll_separate {sep : Text} {ns : List Node}
    (h : ∀ n ∈ ns, n.WellFormed ∧ n.isText = false) : WellFormedAll (separate sep ns) := by
  induction ns with
  | nil => exact trivial
  | cons n ns ih =>
    obtain ⟨hn, htext⟩ := h n List.mem_cons_self
    have hns := ih fun m hm => h m (List.mem_cons_of_mem _ hm)
    refine ⟨hn, fun hn => absurd hn (by simp [htext]), trivial, fun _ m hm => ?_, hns⟩
    cases ns with
    | nil => cases hm
    | cons m' ns =>
      obtain rfl : m' = m := Option.some.inj hm
      exact (h m' (by simp)).2

/-! ## White space -/

/-- Without white space there is nothing to collapse. -/
theorem collapse_eq_self {s : Text} (h : ∀ c ∈ s, isSpace c = false) : collapse s = s := by
  unfold collapse
  rw [List.splitOnP_eq_singleton h]
  by_cases hs : s = []
  · simp [hs]
  · simp [hs]

/-- The words of a text have characters of the text only. -/
theorem mem_of_mem_splitOnP {p : UInt8 → Bool} {s word : Text} {c : UInt8}
    (hword : word ∈ s.splitOnP p) (hc : c ∈ word) : c ∈ s := by
  induction s generalizing word with
  | nil =>
    rw [List.splitOnP_nil, List.mem_singleton] at hword
    rw [hword] at hc
    exact hc
  | cons a s ih =>
    rw [List.splitOnP_cons_eq_if_modifyHead] at hword
    split at hword
    · rcases List.mem_cons.mp hword with rfl | hword
      · cases hc
      · exact List.mem_cons_of_mem _ (ih hword hc)
    · cases hsplit : s.splitOnP p with
      | nil => exact absurd hsplit (List.splitOnP_ne_nil p s)
      | cons w ws =>
        rw [hsplit, List.modifyHead_cons, List.mem_cons] at hword
        rcases hword with rfl | hword
        · rcases List.mem_cons.mp hc with rfl | hc
          · exact List.mem_cons_self
          · exact List.mem_cons_of_mem _ (ih (by rw [hsplit]; exact List.mem_cons_self) hc)
        · exact List.mem_cons_of_mem _
            (ih (by rw [hsplit]; exact List.mem_cons_of_mem _ hword) hc)

/-- What is left of a text is part of it, or a space between two words. -/
theorem mem_collapse {s : Text} {c : UInt8} (h : c ∈ collapse s) : c ∈ s ∨ c = 32 := by
  have hwords : ∀ ws : List Text, (∀ w ∈ ws, ∀ c ∈ w, c ∈ s) → ∀ c ∈ [32].intercalate ws,
      c ∈ s ∨ c = 32 := by
    intro ws
    induction ws with
    | nil => simp
    | cons w ws ih =>
      intro hws c hc
      cases ws with
      | nil =>
        rw [List.intercalate_singleton] at hc
        exact Or.inl (hws w List.mem_cons_self c hc)
      | cons w' ws =>
        rw [List.intercalate_cons_cons, List.append_assoc, List.mem_append, List.mem_append,
          List.mem_singleton] at hc
        rcases hc with hc | hc | hc
        · exact Or.inl (hws w List.mem_cons_self c hc)
        · exact Or.inr hc
        · exact ih (fun w hw => hws w (List.mem_cons_of_mem _ hw)) c hc
  exact hwords _ (fun w hw c hc => mem_of_mem_splitOnP (List.mem_filter.mp hw).1 hc) c h

end Elykseer.Foundation.Xml
