import FormulaPath.Path
import Mathlib.Data.List.Chain
import Mathlib.Data.List.TakeWhile

/-!
# Where a text is cut into parts

Splitting looks at the text from left to right, so the parts in front of a boundary depend on
nothing behind it: `splitFrom_resume` says that every part of a text starts at a boundary at which
any other text may go on, as long as it shows the same separator. The place of a part, the tiling
of the text by the regions of its parts, and the exchange of the last part for another name all
follow from this one fact; none of them needs an induction of its own.
-/
namespace FormulaPath

namespace Separator

/-- The separator in front of a part, told from the character behind the part before it. -/
def ofChar (c : Char) : Separator :=
  if c = '.' then dot else if c = '[' then bracket else missing

/-- Whether a text that goes on with `cs` behind the separator `s` shows this separator. -/
def Opens (s : Separator) (cs : List Char) : Prop :=
  (s.text.toList ++ cs).head?.map ofChar = some s

theorem bytes_text (s : Separator) : Text.bytes s.text.toList = s.width := by
  cases s <;> rfl

theorem ofChar_ne_start (c : Char) : ofChar c ≠ start := by
  unfold ofChar
  split_ifs <;> simp

theorem ofChar_text_append (c : Char) (rest : List Char) :
    (ofChar c).text.toList ++ (c :: rest).drop (ofChar c).width = c :: rest := by
  unfold ofChar
  split_ifs with hdot hopen <;> simp [text, width, *]

theorem eq_of_ofChar {c d : Char} (hc : Path.endsName c = true) (h : ofChar d = ofChar c) :
    d = c := by
  simp only [Path.endsName, Bool.or_eq_true, beq_iff_eq] at hc
  rcases hc with rfl | rfl <;> simp only [ofChar] at h <;> split_ifs at h <;> simp_all

theorem endsName_of_ofChar {c : Char} (h : ofChar c ≠ missing) : Path.endsName c = true := by
  unfold ofChar at h
  split_ifs at h with hdot hopen <;> simp_all [Path.endsName]

theorem opens_dot (cs : List Char) : dot.Opens cs := rfl

theorem not_opens_start (cs : List Char) : ¬ start.Opens cs := by
  intro h
  obtain ⟨c,-,hc⟩ := Option.map_eq_some_iff.mp h
  exact ofChar_ne_start c hc

theorem opens_bracket {cs : List Char} (h : bracket.Opens cs) : cs.head? = some '[' := by
  obtain ⟨c,hc,hopen⟩ := Option.map_eq_some_iff.mp h
  have hc' : cs.head? = some c := hc
  unfold ofChar at hopen
  split_ifs at hopen with hdot hbracket
  rw [hc',hbracket]

theorem opens_drop (c : Char) (rest : List Char) :
    (ofChar c).Opens ((c :: rest).drop (ofChar c).width) := by
  unfold Opens
  rw [ofChar_text_append]
  rfl

theorem Opens.replace {s : Separator} {front back : List Char} (h : s.Opens (front ++ back))
    (hne : front ≠ []) (r : List Char) : s.Opens (front ++ r) := by
  unfold Opens at h ⊢
  cases front with
  | nil => exact absurd rfl hne
  | cons d front => cases hs : s.text.toList <;> simpa [hs] using h

theorem Opens.append {s : Separator} {front : List Char} (h : s.Opens front) (r : List Char) :
    s.Opens (front ++ r) := by
  obtain ⟨c,hc,hs⟩ := Option.map_eq_some_iff.mp h
  unfold Opens
  rw [← List.append_assoc,List.head?_append,hc]
  exact congrArg some hs

theorem Opens.exists_cons {s : Separator} {r : List Char} (h : s.Opens r) :
    ∃ d rest, s.text.toList ++ r = d :: rest ∧ ofChar d = s ∧ (d :: rest).drop s.width = r := by
  unfold Opens at h
  cases hr : s.text.toList ++ r with
  | nil => simp [hr] at h
  | cons d rest =>
      refine ⟨d,rest,rfl,by simpa [hr] using h,?_⟩
      rw [← hr]
      cases s <;> simp [text, width]

end Separator

namespace Path
open Text Separator

theorem takeBracket_resume {quoted : Bool} {cs : List Char}
    (h : (takeBracket quoted cs).2 ≠ []) (r : List Char) :
    takeBracket quoted ((takeBracket quoted cs).1 ++ r) = ((takeBracket quoted cs).1, r) := by
  induction cs generalizing quoted with
  | nil => exact absurd rfl h
  | cons c cs ih =>
      by_cases hc : c = ']' ∧ quoted = false
      · simp [takeBracket, hc]
      · simp only [takeBracket, if_neg hc] at h
        simp only [takeBracket, if_neg hc, List.cons_append, ih h]

theorem takePart_of_head {cs : List Char} (h : cs.head? ≠ some '[') :
    takePart cs = takeName cs := by
  unfold takePart
  split
  · exact absurd rfl h
  · rfl

theorem takeName_append {name r : List Char} {c : Char} (hname : ∀ d ∈ name, endsName d = false)
    (hc : endsName c = true) : takeName (name ++ c :: r) = (name, c :: r) := by
  have hname' : ∀ d ∈ name, (!endsName d) = true := by simpa using hname
  simp [takeName, List.takeWhile_append_of_pos hname', List.dropWhile_append_of_pos hname', hc]

theorem mem_takeName {cs : List Char} {d : Char} (hd : d ∈ (takeName cs).1) :
    endsName d = false := by
  have h := List.mem_takeWhile_imp hd
  simpa using h

theorem endsName_of_takeName {cs rest : List Char} {c : Char} (h : (takeName cs).2 = c :: rest) :
    endsName c = true := by
  have hhead := List.head?_dropWhile_not (fun c => !endsName c) cs
  simp only [takeName] at h
  simpa [h] using hhead

theorem head?_ne_of_name {name : List Char} (h : ∀ c ∈ name, endsName c = false) :
    name.head? ≠ some '[' := by
  intro hopen
  have := h '[' (List.mem_of_mem_head? hopen)
  simp [endsName] at this

theorem takePart_name {name : List Char} (h : ∀ c ∈ name, endsName c = false) :
    takePart name = (name, []) := by
  have h' : ∀ c ∈ name, (!endsName c) = true := by simpa using h
  rw [takePart_of_head (head?_ne_of_name h), takeName, List.takeWhile_eq_self_iff.mpr h',
    List.dropWhile_eq_nil_iff.mpr h']

theorem name_of_takePart {cs : List Char} (hopen : cs.head? ≠ some '[')
    (h : (takePart cs).2 = []) : ∀ c ∈ cs, endsName c = false := by
  have happ := takePart_append cs
  rw [h,List.append_nil,takePart_of_head hopen] at happ
  intro c hc
  rw [← happ] at hc
  exact mem_takeName hc

/-- A part that something follows stays the same in front of any text that is separated from it in
the same way. -/
theorem takePart_resume {cs rest : List Char} {c : Char} (h : (takePart cs).2 = c :: rest)
    {d : Char} (hd : ofChar d = ofChar c) (r : List Char) :
    takePart ((takePart cs).1 ++ d :: r) = ((takePart cs).1, d :: r) := by
  by_cases hopen : cs.head? = some '['
  · obtain ⟨cs,rfl⟩ := List.head?_eq_some_iff.mp hopen
    have hclosed : (takeBracket false cs).2 ≠ [] := by
      change (takeBracket false cs).2 = c :: rest at h
      simp [h]
    simp only [takePart, List.cons_append, takeBracket_resume hclosed]
  · rw [takePart_of_head hopen] at h ⊢
    have hc := endsName_of_takeName h
    obtain rfl := eq_of_ofChar hc hd
    rw [takePart_of_head, takeName_append (fun _ => mem_takeName) hc]
    have happ := takePart_append cs
    rw [takePart_of_head hopen,h] at happ
    rw [← happ] at hopen
    cases hn : (takeName cs).1 <;> simpa [hn] using hopen

theorem front_ne_nil {cs rest : List Char} {c : Char} (h : (takePart cs).2 = c :: rest) :
    (takePart cs).1 ++ (ofChar c).text.toList ≠ [] := by
  by_cases hdot : c = '.'
  · simp [hdot, ofChar, text]
  · have hlt := length_rest_lt h (by simp) (by simpa using hdot)
    have hlen := congrArg List.length (takePart_append cs)
    rw [h,List.length_append] at hlen
    intro hnil
    have hfirst := (List.append_eq_nil_iff.mp hnil).1
    rw [hfirst,List.length_nil] at hlen
    omega

/-- What is left behind a part and its separator is shorter than the text. -/
theorem length_next_lt {cs rest : List Char} {c : Char} (h : (takePart cs).2 = c :: rest) :
    ((c :: rest).drop (ofChar c).width).length < cs.length := by
  have happ := takePart_append cs
  rw [h,← ofChar_text_append c rest] at happ
  have hfront := List.length_pos_iff.mpr (front_ne_nil h)
  have hlength := congrArg List.length happ
  simp only [List.length_append] at hfront hlength
  omega

theorem splitFrom_last {sep : Separator} {start : Nat} {cs : List Char}
    (h : (takePart cs).2 = []) :
    splitFrom sep start cs = [⟨String.ofList cs, Region.span start (bytes cs), sep⟩] := by
  have happ := takePart_append cs
  rw [h,List.append_nil] at happ
  rw [splitFrom]
  split
  · rw [happ]
  · simp_all

theorem splitFrom_next {sep : Separator} {start : Nat} {cs rest : List Char} {c : Char}
    (h : (takePart cs).2 = c :: rest) :
    splitFrom sep start cs =
      ⟨String.ofList (takePart cs).1, Region.span start (bytes (takePart cs).1), sep⟩ ::
        splitFrom (.ofChar c) (start + bytes (takePart cs).1 + (ofChar c).width)
          ((c :: rest).drop (ofChar c).width) := by
  rw [splitFrom]
  split
  · simp_all
  next c' rest' h' =>
    rw [h] at h'
    obtain ⟨rfl,rfl⟩ := List.cons.inj h'
    by_cases hdot : c = '.'
    · simp [hdot, ofChar, width]
    · by_cases hopen : c = '[' <;> simp [hdot, hopen, ofChar, width]

/-- One part and the separator behind it, in front of any text that shows this separator. -/
theorem splitFrom_step {sep : Separator} {start : Nat} {cs rest : List Char} {c : Char}
    (h : (takePart cs).2 = c :: rest) {r : List Char} (hr : (ofChar c).Opens r) :
    splitFrom sep start ((takePart cs).1 ++ ((ofChar c).text.toList ++ r)) =
      ⟨String.ofList (takePart cs).1, Region.span start (bytes (takePart cs).1), sep⟩ ::
        splitFrom (.ofChar c) (start + bytes (takePart cs).1 + (ofChar c).width) r := by
  obtain ⟨d,more,happ,hd,hdrop⟩ := hr.exists_cons
  have htake := takePart_resume h hd more
  have hmore : (takePart ((takePart cs).1 ++ d :: more)).2 = d :: more := by rw [htake]
  rw [happ,splitFrom_next hmore,htake,hd,hdrop]

theorem splitFrom_head (sep : Separator) (start : Nat) (cs : List Char) :
    ∃ later, splitFrom sep start cs =
      ⟨String.ofList (takePart cs).1, Region.span start (bytes (takePart cs).1), sep⟩ :: later := by
  cases h : (takePart cs).2 with
  | nil =>
      have happ := takePart_append cs
      rw [h,List.append_nil] at happ
      rw [splitFrom_last h,happ]
      exact ⟨[],rfl⟩
  | cons c rest => exact ⟨_,splitFrom_next h⟩

theorem head_of_splitFrom {sep : Separator} {start : Nat} {cs : List Char} {part : Part}
    {later : List Part} (h : splitFrom sep start cs = part :: later) :
    part = ⟨String.ofList (takePart cs).1, Region.span start (bytes (takePart cs).1), sep⟩ := by
  obtain ⟨others,hothers⟩ := splitFrom_head sep start cs
  rw [h] at hothers
  exact (List.cons.inj hothers).1

theorem splitFrom_singleton {sep : Separator} {start : Nat} {cs : List Char} {part : Part}
    (h : splitFrom sep start cs = [part]) :
    (takePart cs).2 = [] ∧ part = ⟨String.ofList cs, Region.span start (bytes cs), sep⟩ := by
  cases hrest : (takePart cs).2 with
  | nil =>
      rw [splitFrom_last hrest] at h
      exact ⟨rfl,(List.cons.inj h).1.symm⟩
  | cons c rest =>
      rw [splitFrom_next hrest] at h
      exact absurd (List.cons.inj h).2 (splitFrom_ne_nil _ _ _)

/-- Every part starts at a boundary: the text in front of it is cut into the parts in front of it
whatever follows there, provided that what follows shows the same separator. -/
theorem splitFrom_resume {sep : Separator} {start : Nat} {cs : List Char} {init later : List Part}
    {part : Part} (h : splitFrom sep start cs = init ++ part :: later) :
    ∃ front rest, cs = front ++ rest ∧ (front = [] ↔ init = []) ∧
      (init = [] ∨ part.separator.Opens rest) ∧
      splitFrom part.separator (start + bytes front) rest = part :: later ∧
      ∀ r, init = [] ∨ part.separator.Opens r →
        splitFrom sep start (front ++ r) =
          init ++ splitFrom part.separator (start + bytes front) r := by
  induction init generalizing sep start cs with
  | nil =>
      have hsep : part.separator = sep := by rw [head_of_splitFrom h]
      refine ⟨[],cs,rfl,by simp,Or.inl rfl,?_,?_⟩
      · simpa [hsep] using h
      · intro r _
        simp [hsep]
  | cons p init ih =>
      cases hrest : (takePart cs).2 with
      | nil => simp [splitFrom_last hrest] at h
      | cons c rest =>
          rw [splitFrom_next hrest,List.cons_append,List.cons.injEq] at h
          obtain ⟨hp,htail⟩ := h
          obtain ⟨front,back,hback,hnil,hshown,hresume,hframe⟩ := ih htail
          have hopens := opens_drop c rest
          rw [hback] at hopens
          have hsep : init = [] → part.separator = ofChar c := by
            intro hinit
            rw [hinit,List.nil_append] at htail
            rw [head_of_splitFrom htail]
          have hbytes : bytes ((takePart cs).1 ++ (ofChar c).text.toList ++ front) =
              bytes (takePart cs).1 + (ofChar c).width + bytes front := by
            simp [bytes_text]
            omega
          -- What follows the boundary also has to follow the first part, by the same separator.
          have hfollows : ∀ r, part.separator.Opens r → (ofChar c).Opens (front ++ r) := by
            intro r hr
            by_cases hinit : init = []
            · rw [hnil.mpr hinit,← hsep hinit]
              exact hr
            · exact hopens.replace (mt hnil.mp hinit) r
          refine ⟨(takePart cs).1 ++ (ofChar c).text.toList ++ front,back,?_,?_,?_,?_,?_⟩
          · rw [List.append_assoc,← hback,List.append_assoc,ofChar_text_append,← hrest,
              takePart_append]
          · have := front_ne_nil hrest
            simp_all
          · right
            rcases hshown with hinit | hshown
            · rw [hsep hinit]
              simpa [hnil.mpr hinit] using hopens
            · exact hshown
          · rw [hbytes]
            simpa only [Nat.add_assoc] using hresume
          · intro r hr
            have hr' : part.separator.Opens r := by simpa using hr
            rw [hbytes,List.append_assoc,List.append_assoc,
              splitFrom_step hrest (hfollows r hr'),hframe r (Or.inr hr'),hp]
            simp [Nat.add_assoc]

theorem split_start (path : String) :
    (split path).head?.map (·.region.start) = some 0 := by
  obtain ⟨later,h⟩ := splitFrom_head .start 0 path.toList
  rw [split,h]
  simp [Region.clamp]

theorem split_empty : split "" = [⟨"", Region.span 0 0, .start⟩] := splitFrom_last rfl

theorem split_eq_append (path : String) : ∃ init last, split path = init ++ [last] :=
  ⟨_,_,(List.dropLast_append_getLast (split_ne_nil path)).symm⟩

theorem split_stop {path : String} (hlen : path.utf8ByteSize ≤ Region.limit) :
    (split path).getLast?.map (·.region.stop) = some path.utf8ByteSize := by
  obtain ⟨init,last,h⟩ := split_eq_append path
  obtain ⟨front,rest,hcut,-,-,hlast,-⟩ := splitFrom_resume h
  have hbytes := congrArg bytes hcut
  rw [bytes_toList,bytes_append] at hbytes
  rw [h,(splitFrom_singleton hlast).2]
  simp only [List.getLast?_append, List.getLast?_singleton, Option.some_or, Option.map_some,
    Region.span_stop, Nat.zero_add]
  rw [← hbytes,Region.clamp_of_le hlen]

theorem width_of_ne_dot {c : Char} (h : c ≠ '.') : (ofChar c).width = 0 := by
  by_cases hopen : c = '[' <;> simp [ofChar, h, hopen, width]

/-- A separator and the part behind it are never both empty: behind a dot the part may be, and
without a dot it opens with the character that was found there. -/
theorem separated_pos (c : Char) (rest : List Char) :
    0 < (ofChar c).width + bytes (takePart ((c :: rest).drop (ofChar c).width)).1 := by
  by_cases hdot : c = '.'
  · have hwidth : (ofChar c).width = 1 := by simp [hdot, ofChar, width]
    omega
  · rw [width_of_ne_dot hdot,List.drop_zero,Nat.zero_add,Nat.pos_iff_ne_zero,Ne,bytes_eq_zero]
    intro hnil
    have hlt : (takePart (c :: rest)).2.length < (c :: rest).length :=
      length_takePart_lt (by simp) (by simpa using hdot)
    have hlength := congrArg List.length (takePart_append (c :: rest))
    rw [hnil,List.nil_append] at hlength
    omega

/-- Two parts in a row: the second lies behind the first, by the width of its separator, and ends
further on. -/
theorem split_consecutive {path : String} {init later : List Part} {p q : Part}
    (h : split path = init ++ p :: q :: later) :
    ∃ stop, p.region.stop = Region.clamp stop ∧
      q.region = Region.span (stop + q.separator.width) q.text.utf8ByteSize ∧
      0 < q.separator.width + q.text.utf8ByteSize ∧
      stop + q.separator.width + q.text.utf8ByteSize ≤ path.utf8ByteSize := by
  obtain ⟨front,rest,hcut,-,-,hp,-⟩ := splitFrom_resume h
  cases hrest : (takePart rest).2 with
  | nil => simp [splitFrom_last hrest] at hp
  | cons c more =>
      have happ := takePart_append rest
      rw [hrest,← ofChar_text_append c more] at happ
      have hbytes := congrArg bytes happ
      have hpath := congrArg bytes hcut
      have hnext := congrArg bytes (takePart_append ((c :: more).drop (ofChar c).width))
      simp only [bytes_append, bytes_text] at hbytes hpath hnext
      rw [bytes_toList] at hpath
      rw [splitFrom_next hrest,List.cons.injEq] at hp
      have hq := head_of_splitFrom hp.2
      refine ⟨0 + bytes front + bytes (takePart rest).1,by rw [← hp.1]; rfl,?_,?_,?_⟩
      · rw [hq]
        simp
      · rw [hq]
        simpa using separated_pos c more
      · rw [hq]
        simp only [utf8ByteSize_ofList]
        omega

/-- The regions of the parts tile the text: each starts behind the one before it, by the width of
the separator. -/
theorem split_tiles {path : String} (hlen : path.utf8ByteSize ≤ Region.limit) :
    (split path).IsChain fun p q => p.region.stop + q.separator.width = q.region.start := by
  rw [List.isChain_iff_forall_rel_of_append_cons_cons]
  intro p q init later h
  obtain ⟨stop,hp,hq,-,hpath⟩ := split_consecutive h
  rw [hp,hq,Region.span_start,Region.clamp_of_le (by omega),Region.clamp_of_le (by omega)]

theorem stop_le_of_mem_split {path : String} {part : Part} (h : part ∈ split path) :
    part.region.stop ≤ path.utf8ByteSize := by
  obtain ⟨init,later,hsplit⟩ := List.append_of_mem h
  obtain ⟨front,rest,hcut,-,-,hresume,-⟩ := splitFrom_resume hsplit
  have hpath := congrArg bytes hcut
  have hrest := congrArg bytes (takePart_append rest)
  simp only [bytes_append, bytes_toList] at hpath hrest
  rw [head_of_splitFrom hresume,Region.span_stop,Region.clamp]
  omega

theorem name_of_split {path : String} {init : List Part} {last : Part}
    (hsplit : split path = init ++ [last]) (hbracket : isBracketText last.text = false) :
    ∀ c ∈ last.text.toList, endsName c = false := by
  obtain ⟨front,rest,-,-,-,hlast,-⟩ := splitFrom_resume hsplit
  obtain ⟨hnone,htext⟩ := splitFrom_singleton hlast
  rw [htext,String.toList_ofList]
  apply name_of_takePart _ hnone
  rw [htext] at hbracket
  simpa [isBracketText] using hbracket

theorem isBracketText_of_name {text : String} (h : ∀ c ∈ text.toList, endsName c = false) :
    isBracketText text = false := by
  simpa [isBracketText] using head?_ne_of_name h

theorem isBracket_of_splitFrom {sep : Separator} {start : Nat} {cs : List Char} {part : Part}
    {later : List Part} (h : splitFrom sep start cs = part :: later) :
    part.isBracket = true ↔ cs.head? = some '[' := by
  rw [head_of_splitFrom h]
  by_cases hopen : cs.head? = some '['
  · obtain ⟨inside,rfl⟩ := List.head?_eq_some_iff.mp hopen
    simp [Part.isBracket, isBracketText, takePart]
  · rw [takePart_of_head hopen]
    have hname : isBracketText (String.ofList (takeName cs).1) = false :=
      isBracketText_of_name fun c hc => mem_takeName (by simpa using hc)
    simp [Part.isBracket, hname, hopen]

theorem eq_append_of_getElem? {parts : List Part} {i : Nat} {part : Part}
    (h : parts[i]? = some part) : parts = parts.take i ++ part :: parts.drop (i + 1) := by
  obtain ⟨hi,rfl⟩ := List.getElem?_eq_some_iff.mp h
  rw [← List.drop_eq_getElem_cons hi,List.take_append_drop]

/-- No bracket is taken for a name that is glued to the part in front of it. -/
theorem separator_of_bracket {path : String} {init later : List Part} {part : Part}
    (h : split path = init ++ part :: later) (hbracket : part.isBracket = true) :
    part.separator ≠ .missing := by
  intro hmissing
  obtain ⟨front,rest,-,-,hshown,hresume,-⟩ := splitFrom_resume h
  rcases hshown with rfl | hopens
  · rw [head_of_splitFrom h] at hmissing
    cases hmissing
  · have hhead := (isBracket_of_splitFrom hresume).mp hbracket
    rw [hmissing] at hopens
    simp [Opens, text, hhead, ofChar] at hopens

/-- The text of the last part of a path: what is being typed. -/
def lastText (path : String) : String := ((split path).getLast (split_ne_nil path)).text

/-- The path with another text in place of its last part. -/
def retype (path text : String) : String :=
  String.ofList (path.toList.take (path.toList.length - (lastText path).toList.length)) ++ text

theorem lastText_of_split {path : String} {init : List Part} {last : Part}
    (h : split path = init ++ [last]) : lastText path = last.text := by
  simp [lastText, h]

/-- What stands in front of the last part is kept. -/
theorem retype_eq_append {path front : String} (h : path = front ++ lastText path)
    (text : String) : retype path text = front ++ text := by
  have hcut := congrArg String.toList h
  rw [String.toList_append] at hcut
  unfold retype
  rw [hcut]
  simp

/-- Another name may stand in place of the last part if it shows the same separator: the text in
front of it is cut as before. -/
theorem exists_split_front {path : String} {init : List Part} {last : Part}
    (hsplit : split path = init ++ [last]) :
    ∃ front : String, path = front ++ last.text ∧
      (init = [] ∨ last.separator.Opens last.text.toList) ∧
      ∀ name : String, (∀ c ∈ name.toList, endsName c = false) →
        (init = [] ∨ last.separator.Opens name.toList) →
        ∃ region, split (front ++ name) = init ++ [⟨name, region, last.separator⟩] := by
  obtain ⟨front,rest,hcut,-,hshown,hlast,hframe⟩ := splitFrom_resume hsplit
  obtain rfl : rest = last.text.toList := by
    rw [(splitFrom_singleton hlast).2,String.toList_ofList]
  refine ⟨String.ofList front,?_,hshown,?_⟩
  · apply String.toList_injective
    rw [String.toList_append,String.toList_ofList]
    exact hcut
  · intro name hname hopens
    rw [split,String.toList_append,String.toList_ofList,hframe name.toList hopens,
      splitFrom_last (by rw [takePart_name hname]),String.ofList_toList]
    exact ⟨_,rfl⟩

/-- A last part that is a name can be exchanged for another name: the other parts stay, and so does
the separator. -/
theorem split_retype {path name : String} {init : List Part} {last : Part}
    (hsplit : split path = init ++ [last]) (hbracket : isBracketText last.text = false)
    (hsep : last.separator ≠ .missing) (hname : ∀ c ∈ name.toList, endsName c = false) :
    ∃ region, split (retype path name) = init ++ [⟨name, region, last.separator⟩] := by
  obtain ⟨front,hcut,hshown,hframe⟩ := exists_split_front hsplit
  have hopens : init = [] ∨ last.separator.Opens name.toList := by
    refine hshown.imp_right fun hopens => ?_
    cases hs : last.separator with
    | start => exact absurd (hs ▸ hopens) (not_opens_start last.text.toList)
    | dot => exact opens_dot name.toList
    | bracket =>
        have hopen := opens_bracket (hs ▸ hopens)
        simp [isBracketText, hopen] at hbracket
    | missing => exact absurd hs hsep
  rw [← lastText_of_split hsplit] at hcut
  rw [retype_eq_append hcut]
  exact hframe name hname hopens

/-- A last part that goes on being a name takes up all that is typed behind it. -/
theorem split_append_name {path more : String} {init : List Part} {last : Part}
    (hsplit : split path = init ++ [last])
    (hname : ∀ c ∈ (last.text ++ more).toList, endsName c = false) :
    ∃ region, split (path ++ more) = init ++ [⟨last.text ++ more, region, last.separator⟩] := by
  obtain ⟨front,hcut,hshown,hframe⟩ := exists_split_front hsplit
  rw [hcut,String.append_assoc]
  apply hframe (last.text ++ more) hname
  rw [String.toList_append]
  exact hshown.imp_right fun hopens => hopens.append more.toList

end Path

end FormulaPath
