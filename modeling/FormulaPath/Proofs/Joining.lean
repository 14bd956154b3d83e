import FormulaPath.Proofs.Terminated

/-!
# Splitting and joining

Splitting and joining are inverse to each other between the texts and the well-formed lists of
parts. `WellFormed` says what such a list looks like without regard to splitting: which texts a part
can have, and which part can follow which. A text is read back from its parts because no character
is lost. For the other way round one part is taken off a joined text at a time: a name ends in front
of a dot or a bracket, and a bracket at its first `]` outside quotes, whatever follows there.
-/
namespace FormulaPath.Path
open Text Separator

/-! ## Well-formed lists of parts -/

/-- A text without a dot and an opening bracket. -/
def IsName (text : String) : Prop := '.' ∉ text.toList ∧ '[' ∉ text.toList

/-- A bracket text that ends at its first `]` outside quotes. -/
def IsClosed (text : String) : Prop :=
  isBracketText text = true ∧ isTerminated text = true ∧ NoClose false text.toList.dropLast

/-- A bracket text without a `]` outside quotes. -/
def IsOpen (text : String) : Prop := isBracketText text = true ∧ NoClose false text.toList

/-- Whether the part `q` can stand right behind `p`: nothing follows an open bracket, and `q` shows
its separator there. -/
def Follows (p q : Part) : Prop :=
  ¬ IsOpen p.text ∧
    match q.separator with
    | .start => False
    | .dot => True
    | .bracket => isBracketText q.text = true ∧ p.text ≠ ""
    | .missing => IsName q.text ∧ q.text ≠ "" ∧ IsClosed p.text

/-- The parts are those of some text. -/
structure WellFormed (parts : List Part) : Prop where
  first : parts.head?.map Part.separator = some .start
  texts : ∀ p ∈ parts, IsName p.text ∨ IsClosed p.text ∨ IsOpen p.text
  joined : parts.IsChain Follows

section Decidable
variable (text : String) (p q : Part) (parts : List Part)

instance : Decidable (IsName text) := inferInstanceAs (Decidable (_ ∧ _))

instance : Decidable (IsClosed text) := inferInstanceAs (Decidable (_ ∧ _ ∧ _))

instance : Decidable (IsOpen text) := inferInstanceAs (Decidable (_ ∧ _))

instance : Decidable (Follows p q) :=
  match h : q.separator with
  | .start => isFalse (by simp [Follows, h])
  | .dot => decidable_of_iff (¬ IsOpen p.text) (by simp [Follows, h])
  | .bracket => decidable_of_iff
      (¬ IsOpen p.text ∧ isBracketText q.text = true ∧ p.text ≠ "") (by simp [Follows, h])
  | .missing => decidable_of_iff
      (¬ IsOpen p.text ∧ IsName q.text ∧ q.text ≠ "" ∧ IsClosed p.text) (by simp [Follows, h])

instance : Decidable (WellFormed parts) :=
  decidable_of_iff (parts.head?.map Part.separator = some .start ∧
      (∀ p ∈ parts, IsName p.text ∨ IsClosed p.text ∨ IsOpen p.text) ∧ parts.IsChain Follows)
    ⟨fun h => ⟨h.1,h.2.1,h.2.2⟩,fun h => ⟨h.first,h.texts,h.joined⟩⟩

end Decidable

/-! ## The texts of parts -/

theorem isName_iff {text : String} :
    IsName text ↔ ∀ c ∈ text.toList, endsName c = false := by
  unfold IsName
  constructor
  · intro h c hc
    have hdot : c ≠ '.' := fun heq => h.1 (heq ▸ hc)
    have hopen : c ≠ '[' := fun heq => h.2 (heq ▸ hc)
    simp [endsName, hdot, hopen]
  · intro h
    exact ⟨fun hc => absurd (h _ hc) (by decide),fun hc => absurd (h _ hc) (by decide)⟩

theorem noClose_open_iff {cs : List Char} : NoClose false ('[' :: cs) ↔ NoClose false cs := by
  rw [noClose_cons]
  simp

theorem isClosed_iff {text : String} :
    IsClosed text ↔ ∃ inside, text.toList = '[' :: (inside ++ [']']) ∧ NoClose false inside ∧
      opensQuote inside = false := by
  unfold IsClosed
  constructor
  · rintro ⟨hbracket,hterminated,hnone⟩
    obtain ⟨body,hbody⟩ := toList_of_isBracketText hbracket
    obtain ⟨inside,rfl,hquotes⟩ := (isTerminated_iff hbody).mp hterminated
    rw [hbody,← List.cons_append,List.dropLast_concat,noClose_open_iff] at hnone
    exact ⟨inside,hbody,hnone,hquotes⟩
  · rintro ⟨inside,htext,hnone,hquotes⟩
    refine ⟨by simp [isBracketText, htext],(isTerminated_iff htext).mpr ⟨inside,rfl,hquotes⟩,?_⟩
    rw [htext,← List.cons_append,List.dropLast_concat,noClose_open_iff]
    exact hnone

theorem isOpen_iff {text : String} :
    IsOpen text ↔ ∃ inside, text.toList = '[' :: inside ∧ NoClose false inside := by
  unfold IsOpen
  constructor
  · rintro ⟨hbracket,hnone⟩
    obtain ⟨inside,hinside⟩ := toList_of_isBracketText hbracket
    rw [hinside,noClose_open_iff] at hnone
    exact ⟨inside,hinside,hnone⟩
  · rintro ⟨inside,hinside,hnone⟩
    refine ⟨by simp [isBracketText, hinside],?_⟩
    rw [hinside,noClose_open_iff]
    exact hnone

/-- A closed bracket is a part, whatever follows it. -/
theorem takePart_of_closed {text : String} (h : IsClosed text) (r : List Char) :
    takePart (text.toList ++ r) = (text.toList, r) := by
  obtain ⟨inside,htext,hnone,hquotes⟩ := isClosed_iff.mp h
  have hclose := takeBracket_close hnone hquotes r
  simp [htext, takePart, hclose]

/-- The text of a part is a whole part. -/
theorem takePart_of_text {text : String} (h : IsName text ∨ IsClosed text ∨ IsOpen text) :
    takePart text.toList = (text.toList, []) := by
  rcases h with hname | hclosed | hopen
  · exact takePart_name (isName_iff.mp hname)
  · simpa using takePart_of_closed hclosed []
  · obtain ⟨inside,htext,hnone⟩ := isOpen_iff.mp hopen
    simp [htext, takePart, takeBracket_of_noClose hnone]

theorem isName_of_takePart {cs : List Char} (h : cs.head? ≠ some '[') :
    IsName (String.ofList (takePart cs).1) := by
  rw [isName_iff,String.toList_ofList,takePart_of_head h]
  exact fun c => mem_takeName

/-- What is taken off a text is a name or a bracket, and an open bracket only if nothing is left. -/
theorem text_of_takePart (cs : List Char) :
    (IsName (String.ofList (takePart cs).1) ∧ cs.head? ≠ some '[') ∨
      IsClosed (String.ofList (takePart cs).1) ∨
      (IsOpen (String.ofList (takePart cs).1) ∧ (takePart cs).2 = []) := by
  by_cases hopen : cs.head? = some '['
  · right
    obtain ⟨body,rfl⟩ := List.head?_eq_some_iff.mp hopen
    rcases takeBracket_first false body with ⟨inside,hinside,hnone,hquotes⟩ | hnone
    · left
      exact isClosed_iff.mpr ⟨inside,by simp [takePart, hinside],hnone,hquotes⟩
    · right
      have hall := takeBracket_of_noClose hnone
      exact ⟨isOpen_iff.mpr ⟨body,by simp [takePart, hall],hnone⟩,by simp [takePart, hall]⟩
  · exact Or.inl ⟨isName_of_takePart hopen,hopen⟩

/-- A part with something behind it is a name that ends there, or a closed bracket. -/
theorem text_of_takePart_cons {cs rest : List Char} {c : Char} (h : (takePart cs).2 = c :: rest) :
    IsName (String.ofList (takePart cs).1) ∧ endsName c = true ∨
      IsClosed (String.ofList (takePart cs).1) := by
  rcases text_of_takePart cs with ⟨hname,hhead⟩ | hclosed | ⟨-,hnone⟩
  · rw [takePart_of_head hhead] at h
    exact Or.inl ⟨hname,endsName_of_takeName h⟩
  · exact Or.inr hclosed
  · rw [h] at hnone
    cases hnone

theorem not_isOpen {text : String} (h : IsName text ∨ IsClosed text) : ¬ IsOpen text := by
  intro hopen
  rcases h with hname | hclosed
  · have hbracket := isBracketText_of_name (isName_iff.mp hname)
    rw [hopen.1] at hbracket
    cases hbracket
  · obtain ⟨inside,htext,-,hquotes⟩ := isClosed_iff.mp hclosed
    have hnone := hopen.2
    rw [htext,noClose_open_iff] at hnone
    exact noClose_iff.mp hnone inside [] rfl hquotes

/-! ## The parts of a text -/

theorem toList_join_cons (p : Part) (parts : List Part) :
    (join (p :: parts)).toList =
      p.separator.text.toList ++ (p.text.toList ++ (join parts).toList) := by
  simp [join, String.toList_append]

/-- No character is lost. -/
theorem toList_join_splitFrom {sep : Separator} {start : Nat} {cs : List Char} {parts : List Part}
    (h : splitFrom sep start cs = parts) : (join parts).toList = sep.text.toList ++ cs := by
  induction parts generalizing sep start cs with
  | nil => exact absurd h (splitFrom_ne_nil sep start cs)
  | cons p parts ih =>
      cases hrest : (takePart cs).2 with
      | nil =>
          rw [splitFrom_last hrest] at h
          obtain ⟨rfl,rfl⟩ := List.cons.inj h
          simp [join]
      | cons c rest =>
          rw [splitFrom_next hrest] at h
          obtain ⟨rfl,hparts⟩ := List.cons.inj h
          rw [toList_join_cons,ih hparts,ofChar_text_append,← hrest,String.toList_ofList,
            takePart_append]

/-- Two parts in a row: the second can stand behind the first. -/
theorem follows_of_splitFrom {sep : Separator} {start : Nat} {cs : List Char} {p q : Part}
    {later : List Part} (h : splitFrom sep start cs = p :: q :: later) : Follows p q := by
  cases hrest : (takePart cs).2 with
  | nil => simp [splitFrom_last hrest] at h
  | cons c rest =>
      rw [splitFrom_next hrest,List.cons.injEq] at h
      obtain ⟨rfl,hlater⟩ := h
      obtain rfl := head_of_splitFrom hlater
      have htext := text_of_takePart_cons hrest
      refine ⟨not_isOpen (htext.imp_left And.left),?_⟩
      -- The separator is told from the character that ended the first part.
      by_cases hdot : c = '.'
      · subst hdot
        trivial
      by_cases hopen : c = '['
      · subst hopen
        have hfront : (takePart cs).1 ≠ [] := by simpa [ofChar, text] using front_ne_nil hrest
        exact ⟨by simp [isBracketText, ofChar, width, takePart],by simpa using hfront⟩
      · have hmissing : ofChar c = .missing := by simp [ofChar, hdot, hopen]
        have hends : endsName c = false := by simp [endsName, hdot, hopen]
        have hpos := separated_pos c rest
        simp only [hmissing, width, List.drop_zero, Nat.zero_add] at hpos ⊢
        refine ⟨isName_of_takePart (by simpa using hopen),?_,?_⟩
        · intro hempty
          have hnil : (takePart (c :: rest)).1 = [] := by simpa using hempty
          simp [hnil] at hpos
        · refine htext.resolve_left fun hname => ?_
          rw [hname.2] at hends
          cases hends

/-- A region of a text marks the text of its part. -/
theorem substring?_of_mem_split {text : String} (hlen : text.utf8ByteSize ≤ Region.limit)
    {part : Part} (h : part ∈ split text) : part.region.substring? text = some part.text := by
  obtain ⟨init,later,hsplit⟩ := List.append_of_mem h
  obtain ⟨front,rest,hcut,-,-,hresume,-⟩ := splitFrom_resume hsplit
  have hpart := takePart_append rest
  have hbytes := congrArg bytes hcut
  rw [← hpart] at hbytes
  simp only [bytes_toList, bytes_append] at hbytes
  have hstop : cut? text.toList (bytes front + bytes (takePart rest).1) =
      some (front ++ (takePart rest).1, (takePart rest).2) := by
    rw [cut?_eq_some_iff,hcut,List.append_assoc,hpart,bytes_append]
    exact ⟨rfl,rfl⟩
  have hstart : cut? (front ++ (takePart rest).1) (bytes front) =
      some (front, (takePart rest).1) := cut?_eq_some_iff.mpr ⟨rfl,rfl⟩
  rw [head_of_splitFrom hresume,Region.substring?,Region.span_start,Region.span_stop,
    Nat.zero_add,Region.clamp_of_le (by omega),Region.clamp_of_le (by omega)]
  simp only [hstop, hstart]

theorem wellFormed_split (text : String) : WellFormed (split text) where
  first := by
    obtain ⟨later,hlater⟩ := splitFrom_head .start 0 text.toList
    rw [split,hlater]
    rfl
  texts := by
    intro p hp
    obtain ⟨init,later,hsplit⟩ := List.append_of_mem hp
    obtain ⟨front,rest,-,-,-,hresume,-⟩ := splitFrom_resume hsplit
    rw [head_of_splitFrom hresume]
    exact (text_of_takePart rest).imp And.left (Or.imp_right And.left)
  joined := by
    rw [List.isChain_iff_forall_rel_of_append_cons_cons]
    intro p q init later hsplit
    obtain ⟨front,rest,-,-,-,hresume,-⟩ := splitFrom_resume hsplit
    exact follows_of_splitFrom hresume

/-! ## The parts of a joined text -/

theorem Follows.opens {p q : Part} (h : Follows p q) : q.separator.Opens q.text.toList := by
  obtain ⟨-,h⟩ := h
  split at h
  · cases h
  next hsep => exact hsep ▸ opens_dot q.text.toList
  next hsep =>
    obtain ⟨body,hbody⟩ := toList_of_isBracketText h.1
    simp [hsep, Opens, hbody, text, ofChar]
  next hsep =>
    cases htext : q.text.toList with
    | nil => exact absurd (by simpa using htext) h.2.1
    | cons c cs =>
        have hname := isName_iff.mp h.1 c (by simp [htext])
        simp only [endsName, Bool.or_eq_false_iff, beq_eq_false_iff_ne] at hname
        simp [hsep, Opens, text, ofChar, hname.1, hname.2]

/-- A part is taken off a joined text where the next one meets it. -/
theorem Follows.takePart_append {p q : Part} (h : Follows p q)
    (htext : IsName p.text ∨ IsClosed p.text ∨ IsOpen p.text) {c : Char}
    (hc : ofChar c = q.separator) (r : List Char) :
    takePart (p.text.toList ++ c :: r) = (p.text.toList, c :: r) := by
  rcases htext with hname | hclosed | hopen
  · have hplain : isBracketText p.text = false := isBracketText_of_name (isName_iff.mp hname)
    obtain ⟨-,h⟩ := h
    have hends : endsName c = true := by
      apply endsName_of_ofChar
      intro hmissing
      rw [← hc,hmissing] at h
      exact absurd h.2.2.1 (by simp [hplain])
    apply takePart_append_of_closed _ _ hends
    · intro hopen
      rw [← hc,hopen] at h
      exact h.2
    · rw [takePart_name (isName_iff.mp hname)]
    · intro hbracket
      rw [hplain] at hbracket
      cases hbracket
  · exact takePart_of_closed hclosed (c :: r)
  · exact absurd hopen h.1

/-- A joined text splits into the parts that it was joined from. -/
theorem splitFrom_join {p : Part} {later : List Part}
    (htexts : ∀ q ∈ p :: later, IsName q.text ∨ IsClosed q.text ∨ IsOpen q.text)
    (hjoined : (p :: later).IsChain Follows) (sep : Separator) (start : Nat) :
    (splitFrom sep start (p.text.toList ++ (join later).toList)).map
        (fun q => (q.separator, q.text)) =
      (sep, p.text) :: later.map fun q => (q.separator, q.text) := by
  induction later generalizing p sep start with
  | nil =>
      have hwhole := takePart_of_text (htexts p List.mem_cons_self)
      have hjoin : p.text.toList ++ (join []).toList = p.text.toList := by simp [join]
      rw [hjoin,splitFrom_last (by rw [hwhole])]
      simp
  | cons q later ih =>
      rw [List.isChain_cons_cons] at hjoined
      obtain ⟨hfollows,hrest⟩ := hjoined
      have hopens := hfollows.opens.append (join later).toList
      obtain ⟨c,more,happ,hc,hdrop⟩ := hopens.exists_cons
      have htake := hfollows.takePart_append (htexts p List.mem_cons_self) hc more
      have hmore : (takePart (p.text.toList ++ c :: more)).2 = c :: more := by rw [htake]
      rw [toList_join_cons,happ,splitFrom_next hmore,hc,hdrop,List.map_cons,
        ih (fun r hr => htexts r (List.mem_cons_of_mem _ hr)) hrest,htake]
      simp

/-- Splitting and joining are inverse to each other. A text is joined again from its parts, which
are well formed, and the region of each part marks its text. A well-formed list of parts is found
again in the text that is joined from it. -/
theorem split_join_inverse :
    (∀ text : String, join (split text) = text ∧ WellFormed (split text) ∧
      (text.utf8ByteSize ≤ Region.limit →
        ∀ part ∈ split text, part.region.substring? text = some part.text)) ∧
    ∀ parts : List Part, WellFormed parts →
      (split (join parts)).map (fun p => (p.separator, p.text)) =
        parts.map fun p => (p.separator, p.text) := by
  constructor
  · intro text
    refine ⟨?_,wellFormed_split text,fun hlen part => substring?_of_mem_split hlen⟩
    apply String.toList_injective
    exact toList_join_splitFrom rfl
  · intro parts hparts
    cases parts with
    | nil => cases hparts.first
    | cons p later =>
        have hstart : p.separator = .start := Option.some.inj hparts.first
        have hsplit := splitFrom_join hparts.texts hparts.joined .start 0
        rw [split,toList_join_cons,hstart]
        simpa [hstart,Separator.text] using hsplit

/-- A name, a bracket with dots and a bracket in its literal, a name glued to it, an empty part and
an open bracket. -/
def sampleParts : List Part :=
  [⟨"covers", Region.empty 0, .start⟩, ⟨"[\"A].B[\"]", Region.empty 0, .bracket⟩,
    ⟨"sum", Region.empty 0, .missing⟩, ⟨"", Region.empty 0, .dot⟩,
    ⟨"[\"]", Region.empty 0, .dot⟩]

theorem split_join_inverse_covers :
    WellFormed sampleParts ∧ join sampleParts = "covers[\"A].B[\"]sum..[\"]" ∧
      (split "covers[\"A].B[\"]sum..[\"]").map (fun p => (p.separator, p.text)) =
        sampleParts.map fun p => (p.separator, p.text) := by
  have hparts : WellFormed sampleParts := by decide +kernel
  have hjoin : join sampleParts = "covers[\"A].B[\"]sum..[\"]" := by decide +kernel
  exact ⟨hparts,hjoin,hjoin ▸ split_join_inverse.2 sampleParts hparts⟩

end FormulaPath.Path
