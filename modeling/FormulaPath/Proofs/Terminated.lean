import FormulaPath.Proofs.Chain

/-!
# Terminated brackets

A bracket part ends behind the first `]` outside quotes, and without one it takes the rest of the
text. `takeBracket_cases` says so of the scan. Two things follow. Behind a part that is a name or a
terminated bracket the text can be continued without moving any boundary in front of the
continuation (`splitFrom_append`). And since the content of a bracket is read without regard to the
quotes inside it, a bracket can have a meaning although the scan never found its end: this happens
exactly for qualifiers with an odd number of quotes in their name.

What stands in front of a bracket is not looked at either: it resolves behind a dot as well, and then
its region does not begin where the one before it ends (`resolve_bracket_adjacent_iff`).
-/
namespace FormulaPath

namespace Path
open Text Separator

/-- Whether a double quote is still open behind the characters. -/
def opensQuote (cs : List Char) : Bool := cs.count '"' % 2 == 1

@[simp] theorem opensQuote_nil : opensQuote [] = false := rfl

@[simp] theorem opensQuote_append (l r : List Char) :
    opensQuote (l ++ r) = (opensQuote l != opensQuote r) := by
  simp only [opensQuote, List.count_append]
  rcases Nat.mod_two_eq_zero_or_one (l.count '"') with hl | hl <;>
    rcases Nat.mod_two_eq_zero_or_one (r.count '"') with hr | hr <;>
    simp [Nat.add_mod, hl, hr]

theorem opensQuote_cons (c : Char) (cs : List Char) :
    opensQuote (c :: cs) = ((c == '"') != opensQuote cs) := by
  have h : opensQuote [c] = (c == '"') := by
    by_cases hc : c = '"' <;> simp [opensQuote, hc]
  rw [← h,← opensQuote_append,List.singleton_append]

/-- Whether a bracket text ends in a `]` outside quotes. -/
def isTerminated (text : String) : Bool :=
  text.toList.getLast? == some ']' && !opensQuote text.toList

theorem isTerminated_iff {text : String} {body : List Char} (h : text.toList = '[' :: body) :
    isTerminated text = true ↔ ∃ inside, body = inside ++ [']'] ∧ opensQuote inside = false := by
  unfold isTerminated
  rw [h]
  simp only [Bool.and_eq_true, beq_iff_eq, Bool.not_eq_true']
  constructor
  · rintro ⟨hlast,hquotes⟩
    cases body using List.reverseRecOn with
    | nil => simp at hlast
    | append_singleton inside c =>
        rw [← List.cons_append,List.getLast?_concat,Option.some.injEq] at hlast
        subst hlast
        exact ⟨inside,rfl,by simpa [opensQuote_cons] using hquotes⟩
  · rintro ⟨inside,rfl,hquotes⟩
    rw [← List.cons_append,List.getLast?_concat]
    exact ⟨rfl,by simpa [opensQuote_cons] using hquotes⟩

/-- The scan of a bracket goes on behind a character that does not close it, inside a literal or not
by the quotes seen so far. -/
theorem takeBracket_cons {quoted : Bool} {c : Char} (hc : ¬ (c = ']' ∧ quoted = false))
    (cs : List Char) :
    takeBracket quoted (c :: cs) = (c :: (takeBracket ((c == '"') != quoted) cs).1,
      (takeBracket ((c == '"') != quoted) cs).2) := by
  have hstate : (if c = '"' then !quoted else quoted) = ((c == '"') != quoted) := by
    by_cases hquote : c = '"'
    · simp [hquote]
    · simp [beq_false_of_ne hquote, hquote]
  simp only [takeBracket, if_neg hc, hstate]

/-- No `]` among the characters stands outside quotes; `quoted` tells whether a quote is open in
front of them. -/
def NoClose (quoted : Bool) (cs : List Char) : Prop :=
  ∀ i < cs.length, cs[i]? = some ']' → opensQuote (cs.take i) = !quoted

instance (quoted : Bool) (cs : List Char) : Decidable (NoClose quoted cs) :=
  inferInstanceAs (Decidable (∀ i < cs.length, _))

theorem noClose_nil (quoted : Bool) : NoClose quoted [] := nofun

theorem noClose_cons {quoted : Bool} {c : Char} {cs : List Char} :
    NoClose quoted (c :: cs) ↔
      ¬ (c = ']' ∧ quoted = false) ∧ NoClose ((c == '"') != quoted) cs := by
  have hstate : ∀ b : Bool, ((c == '"') != b) = (!quoted) ↔ b = !((c == '"') != quoted) := by
    intro b
    cases c == '"' <;> cases b <;> cases quoted <;> simp
  unfold NoClose
  constructor
  · intro h
    constructor
    · rintro ⟨rfl,rfl⟩
      simpa using h 0 (by simp)
    · intro i hi hclose
      have hnext := h (i + 1) (by simpa using hi) (by simpa using hclose)
      rwa [List.take_succ_cons,opensQuote_cons,hstate] at hnext
  · intro h i hi hclose
    cases i with
    | zero =>
        obtain rfl : c = ']' := by simpa using hclose
        simpa using h.1
    | succ i =>
        rw [List.take_succ_cons,opensQuote_cons,hstate]
        exact h.2 i (by simpa using hi) (by simpa using hclose)

theorem noClose_iff {quoted : Bool} {cs : List Char} :
    NoClose quoted cs ↔ ∀ inside r, cs = inside ++ ']' :: r → opensQuote inside ≠ quoted := by
  constructor
  · intro h inside r happ
    have hclose := h inside.length (by simp [happ]) (by simp [happ])
    rw [happ,List.take_left] at hclose
    exact Bool.eq_not.mp hclose
  · intro h i _ hclose
    apply Bool.eq_not.mpr
    apply h (cs.take i) (cs.drop (i + 1))
    obtain ⟨hi,hget⟩ := List.getElem?_eq_some_iff.mp hclose
    rw [← hget,← List.drop_eq_getElem_cons hi,List.take_append_drop]

theorem takeBracket_of_noClose {quoted : Bool} {cs : List Char} (h : NoClose quoted cs) :
    takeBracket quoted cs = (cs, []) := by
  induction cs generalizing quoted with
  | nil => rfl
  | cons c cs ih =>
      have hcons := noClose_cons.mp h
      rw [takeBracket_cons hcons.1,ih hcons.2]

theorem takeBracket_close {quoted : Bool} {inside : List Char} (h : NoClose quoted inside)
    (hquotes : opensQuote inside = quoted) (r : List Char) :
    takeBracket quoted (inside ++ ']' :: r) = (inside ++ [']'], r) := by
  induction inside generalizing quoted with
  | nil =>
      obtain rfl : false = quoted := hquotes
      simp [takeBracket]
  | cons c inside ih =>
      have hcons := noClose_cons.mp h
      have hinside : opensQuote inside = ((c == '"') != quoted) := by
        rw [← hquotes,opensQuote_cons]
        simp
      rw [List.cons_append,takeBracket_cons hcons.1,ih hcons.2 hinside,List.cons_append]

/-- What the scan of a bracket takes ends at the first `]` outside quotes, if there is one. -/
theorem takeBracket_first (quoted : Bool) (cs : List Char) :
    (∃ inside, (takeBracket quoted cs).1 = inside ++ [']'] ∧ NoClose quoted inside ∧
      opensQuote inside = quoted) ∨ NoClose quoted cs := by
  induction cs generalizing quoted with
  | nil => exact Or.inr (noClose_nil quoted)
  | cons c cs ih =>
      by_cases hc : c = ']' ∧ quoted = false
      · obtain ⟨rfl,rfl⟩ := hc
        exact Or.inl ⟨[],by simp [takeBracket],noClose_nil false,rfl⟩
      · rw [takeBracket_cons hc]
        rcases ih ((c == '"') != quoted) with ⟨inside,hinside,hfirst,hquotes⟩ | hnone
        · refine Or.inl ⟨c :: inside,by simp [hinside],noClose_cons.mpr ⟨hc,hfirst⟩,?_⟩
          simp [opensQuote_cons, hquotes]
        · exact Or.inr (noClose_cons.mpr ⟨hc,hnone⟩)

/-- What the scan of a bracket can do: it stops behind a `]` outside quotes, whatever follows there,
or there is none and it takes all that is left. -/
theorem takeBracket_cases (quoted : Bool) (cs : List Char) :
    (∃ inside, (takeBracket quoted cs).1 = inside ++ [']'] ∧ opensQuote inside = quoted ∧
      ∀ r, takeBracket quoted (inside ++ ']' :: r) = (inside ++ [']'], r)) ∨
    (takeBracket quoted cs = (cs, []) ∧
      ∀ inside r, cs = inside ++ ']' :: r → opensQuote inside ≠ quoted) := by
  rcases takeBracket_first quoted cs with ⟨inside,hinside,hfirst,hquotes⟩ | hnone
  · exact Or.inl ⟨inside,hinside,hquotes,takeBracket_close hfirst hquotes⟩
  · exact Or.inr ⟨takeBracket_of_noClose hnone,noClose_iff.mp hnone⟩

theorem toList_of_isBracketText {text : String} (h : isBracketText text = true) :
    ∃ body, text.toList = '[' :: body := by
  have hhead : text.toList.head? = some '[' := by simpa [isBracketText] using h
  exact List.head?_eq_some_iff.mp hhead

/-- A name, or a terminated bracket, is read back in front of whatever can follow a part. -/
theorem takePart_append_of_closed {text : String} {c : Char}
    (hpart : (takePart text.toList).2 = [])
    (hclosed : isBracketText text = true → isTerminated text = true) (hc : endsName c = true)
    (hne : c = '[' → text ≠ "") (r : List Char) :
    takePart (text.toList ++ c :: r) = (text.toList, c :: r) := by
  by_cases hopen : isBracketText text = true
  · obtain ⟨body,hbody⟩ := toList_of_isBracketText hopen
    obtain ⟨inside,rfl,hquotes⟩ := (isTerminated_iff hbody).mp (hclosed hopen)
    -- The scan stops somewhere, since the final `]` is outside quotes; as it left nothing over, it
    -- stopped there.
    rcases takeBracket_cases false (inside ++ [']']) with ⟨first,hfirst,-,hstop⟩ | ⟨-,hnone⟩
    · have happ := takeBracket_append false (inside ++ [']'])
      have hall : (takeBracket false (inside ++ [']'])).2 = [] := by
        rw [hbody] at hpart
        exact hpart
      rw [hall,List.append_nil,hfirst] at happ
      obtain rfl : first = inside := List.append_cancel_right happ
      simp [hbody, takePart, hstop]
    · exact absurd hquotes (hnone inside [] rfl)
  · have hhead : text.toList.head? ≠ some '[' := by simpa [isBracketText] using hopen
    have hname := name_of_takePart hhead hpart
    have hhead' : (text.toList ++ c :: r).head? ≠ some '[' := by
      cases htext : text.toList with
      | nil =>
          have hempty : text = "" := by simpa using htext
          intro h
          exact hne (by simpa using h) hempty
      | cons d cs => simpa [htext] using hhead
    rw [takePart_of_head hhead',takeName_append hname hc]

/-- Whether a path ends in a bracket that is not terminated. -/
def endsOpen (path : String) : Bool :=
  isBracketText (lastText path) && !isTerminated (lastText path)

theorem endsOpen_of_forall {path : String}
    (h : ∀ part ∈ split path, part.isBracket = true → isTerminated part.text = true) :
    endsOpen path = false := by
  obtain ⟨init,last,hsplit⟩ := split_eq_append path
  have hlast := h last (by simp [hsplit])
  rw [endsOpen,lastText_of_split hsplit]
  simpa [Part.isBracket] using hlast

/-- A path that does not end in an open bracket can be continued by a dot or, behind a part that is
not empty, by a bracket: its parts stay, and the rest is split as it would be alone. -/
theorem splitFrom_append {path : String} (hclosed : endsOpen path = false) {c : Char}
    (hc : endsName c = true) (hne : c = '[' → lastText path ≠ "") (r : List Char) :
    splitFrom .start 0 (path.toList ++ c :: r) = split path ++
      splitFrom (ofChar c) (path.utf8ByteSize + (ofChar c).width)
        ((c :: r).drop (ofChar c).width) := by
  obtain ⟨init,last,hsplit⟩ := split_eq_append path
  obtain ⟨front,rest,hcut,-,hshown,hlast,hframe⟩ := splitFrom_resume hsplit
  obtain ⟨hpart,htext⟩ := splitFrom_singleton hlast
  have hrest : last.text.toList = rest := by rw [htext,String.toList_ofList]
  rw [endsOpen,lastText_of_split hsplit] at hclosed
  rw [lastText_of_split hsplit] at hne
  have htake : takePart (rest ++ c :: r) = (rest, c :: r) := by
    rw [← hrest] at hpart ⊢
    apply takePart_append_of_closed hpart _ hc hne
    simpa using hclosed
  have hnext : (takePart (rest ++ c :: r)).2 = c :: r := by rw [htake]
  have hopens : init = [] ∨ last.separator.Opens (rest ++ c :: r) :=
    hshown.imp_right fun hopens => hopens.append (c :: r)
  have hbytes : bytes front + bytes rest = path.utf8ByteSize := by
    rw [← bytes_append,← hcut,bytes_toList]
  rw [hcut,List.append_assoc,hframe _ hopens,splitFrom_next hnext,htake,hsplit,List.append_assoc,
    ← hbytes,htext,Nat.zero_add]
  rfl

theorem split_append_dot {path : String} (hclosed : endsOpen path = false) (rest : String) :
    split (path ++ ("." ++ rest)) =
      split path ++ splitFrom .dot (path.utf8ByteSize + 1) rest.toList := by
  have h := splitFrom_append hclosed (c := '.') rfl (by simp) rest.toList
  rw [split,String.toList_append,String.toList_append]
  exact h

theorem split_append_bracket {path text : String} (hclosed : endsOpen path = false)
    (hne : lastText path ≠ "") (htext : isBracketText text = true) :
    split (path ++ text) = split path ++ splitFrom .bracket path.utf8ByteSize text.toList := by
  obtain ⟨body,hbody⟩ := toList_of_isBracketText htext
  have h := splitFrom_append hclosed (c := '[') rfl (fun _ => hne) body
  rw [split,String.toList_append,hbody]
  exact h

/-- A bracket part that is not terminated is the last one, and no `]` in it is outside quotes. -/
theorem last_of_not_terminated {path : String} {init later : List Part} {part : Part}
    (hsplit : split path = init ++ part :: later) (hbracket : part.isBracket = true)
    (hopen : isTerminated part.text = false) :
    later = [] ∧ ∀ inside r, part.text.toList = '[' :: (inside ++ ']' :: r) →
      opensQuote inside = true := by
  obtain ⟨front,rest,-,-,-,hresume,-⟩ := splitFrom_resume hsplit
  have htext : part.text.toList = (takePart rest).1 := by
    rw [head_of_splitFrom hresume,String.toList_ofList]
  obtain ⟨body,hbody⟩ := toList_of_isBracketText hbracket
  obtain ⟨cs,rfl⟩ := List.head?_eq_some_iff.mp ((isBracket_of_splitFrom hresume).mp hbracket)
  have hscan : body = (takeBracket false cs).1 := by
    rw [hbody] at htext
    exact (List.cons.inj htext).2
  rcases takeBracket_cases false cs with ⟨inside,hinside,hquotes,-⟩ | ⟨hall,hnone⟩
  · have hterminated : isTerminated part.text = true :=
      (isTerminated_iff hbody).mpr ⟨inside,hscan.trans hinside,hquotes⟩
    rw [hterminated] at hopen
    cases hopen
  · have hpart : (takePart ('[' :: cs)).2 = [] := by
      change (takeBracket false cs).2 = []
      rw [hall]
    rw [splitFrom_last hpart] at hresume
    refine ⟨(List.cons.inj hresume).2.symm,?_⟩
    intro inside r happ
    rw [hbody,List.cons.injEq] at happ
    rw [hscan,hall] at happ
    simpa using hnone inside r happ.2

end Path

open FormulaPath.Path

theorem isTerminated_qualifierText (name : String) :
    isTerminated (Bracket.qualifierText name) = !opensQuote name.toList := by
  simp [isTerminated, Bracket.toList_qualifierText, opensQuote_cons, List.getLast?_cons]

theorem isTerminated_of_index {text : String} {position : Nat}
    (h : Bracket.ofText text = .index position) : isTerminated text = true := by
  obtain ⟨digits,htext,hindex⟩ := Bracket.ofText_eq_index h
  have hdigits := (Bracket.index?_eq_some_iff.mp hindex).2.1
  have hfree : '"' ∉ digits := by
    intro hquote
    have := List.all_eq_true.mp hdigits '"' hquote
    simp at this
  refine (isTerminated_iff htext).mpr ⟨digits,rfl,?_⟩
  simp [opensQuote, List.count_eq_zero.mpr hfree]

theorem Denotes.isTerminated_iff {env : Environment} {trail : Trail} {text : String} {rule : Rule}
    {r : Referent} {t : Datatype} (h : Denotes env trail text rule r t)
    (hkind : r.category = .index ∨ r.category = .qualifier) :
    isBracketText text = true ∧ (isTerminated text = true ↔
      ∀ name runtimeId c, r = .qualifier name runtimeId c → opensQuote name.toList = false) := by
  cases h with
  | index hbracket _ htext => exact ⟨hbracket,by simp [isTerminated_of_index htext]⟩
  | qualifier hbracket _ htext =>
      refine ⟨hbracket,?_⟩
      rw [Bracket.ofText_eq_qualifier htext,isTerminated_qualifierText]
      simp
  | param => simp [Referent.category] at hkind
  | attr => simp [Referent.category] at hkind
  | assoc => simp [Referent.category] at hkind
  | enumClass => simp [Referent.category] at hkind
  | enumValue => simp [Referent.category] at hkind

theorem isInvalid_of_referent? {node : Node} {r : Referent} (h : node.referent? = some r) :
    node.isInvalid = false := by
  unfold Node.referent? at h
  unfold Node.isInvalid Node.problem?
  cases hm : node.meaning <;> simp_all [Meaning.referent?, Meaning.problem?]

theorem ne_empty_of_referent? {env : Environment} {path : String} {node : Node} {r : Referent}
    (hnode : node ∈ resolve env path) (hr : node.referent? = some r) : path ≠ "" := by
  intro hempty
  subst hempty
  rw [List.mem_singleton.mp hnode] at hr
  cases hr

/-- The bracket part behind an index or a qualifier is terminated, unless the name in it has an odd
number of quotes. Then it is the last part, and no `]` outside quotes stands in it. -/
theorem resolve_bracket_terminated_iff (env : Environment) {path : String} {i : Nat} {node : Node}
    {r : Referent} (hnode : (resolve env path)[i]? = some node) (hr : node.referent? = some r)
    (hkind : r.category = .index ∨ r.category = .qualifier) :
    ∃ part, (split path)[i]? = some part ∧ part.isBracket = true ∧
      (isTerminated part.text = true ↔
        ∀ name runtimeId c, r = .qualifier name runtimeId c → opensQuote name.toList = false) ∧
      (isTerminated part.text = false → i + 1 = (split path).length ∧
        ∀ inside rest, part.text.toList = '[' :: (inside ++ ']' :: rest) →
          opensQuote inside = true) := by
  have hne := ne_empty_of_referent? (List.mem_of_getElem? hnode) hr
  rw [resolve_eq hne] at hnode
  obtain ⟨part,hpart,rfl⟩ := getElem?_resolveFrom hnode
  obtain ⟨-,rule,r',t,heq,hdenotes⟩ := denotes_of_partNode (isInvalid_of_referent? hr)
  rw [heq] at hr
  cases hr
  obtain ⟨hbracket,hterminated⟩ := hdenotes.isTerminated_iff hkind
  refine ⟨part,hpart,hbracket,hterminated,fun hopen => ?_⟩
  obtain ⟨hi,hget⟩ := List.getElem?_eq_some_iff.mp hpart
  have hsplit : split path = (split path).take i ++ part :: (split path).drop (i + 1) := by
    rw [← hget,← List.drop_eq_getElem_cons hi,List.take_append_drop]
  obtain ⟨hlast,hnone⟩ := last_of_not_terminated hsplit hbracket hopen
  have hlen := List.drop_eq_nil_iff.mp hlast
  exact ⟨by omega,hnone⟩

theorem resolve_bracket_terminated_covers :
    let path := "covers[\"BASE\"][0]"
    (resolve sampleEnvironment path)[1]?.bind Node.category? = some .qualifier ∧
      ∃ part, (split path)[1]? = some part ∧ isTerminated part.text = true := by
  intro path
  have hnode : (resolve sampleEnvironment path)[1]? = some ⟨Region.span 6 8,
      .resolved (.qualifier "BASE" "base.1" ⟨"BASE", "BASE", some "base.1", "CoverType", none⟩)
        (.list (.policy "Cover"))⟩ := by decide +kernel
  obtain ⟨part,hpart,-,hterminated,-⟩ :=
    resolve_bracket_terminated_iff sampleEnvironment hnode rfl (Or.inr rfl)
  refine ⟨by rw [hnode]; rfl,part,hpart,hterminated.mpr ?_⟩
  intro name runtimeId c hname
  cases hname
  decide

/-- A component with a quote in its name: the scan takes the last `]` for a part of the name, and
still the bracket selects the component. -/
theorem resolve_open_bracket :
    let env := catalogueEnvironment [⟨"A\"B", "A\"B", some "ab.1", "CoverType", none⟩]
    let path := "covers[\"A\"B\"]"
    (resolve env path)[1]?.bind Node.category? = some .qualifier ∧
      (split path)[1]?.map (isTerminated ·.text) = some false := by
  decide +kernel

/-- A bracket behind another part: a dot stands between them or nothing, and its region begins
accordingly. -/
theorem split_bracket_behind {path : String} {init later : List Part} {p q : Part}
    (h : split path = init ++ p :: q :: later) (hbracket : q.isBracket = true) :
    (q.separator = .bracket ∨ q.separator = .dot) ∧
      (q.separator = .bracket → q.region.start = p.region.stop) ∧
      (path.utf8ByteSize ≤ Region.limit → q.separator = .dot →
        q.region.start = p.region.stop + 1) := by
  have hsplit : split path = (init ++ [p]) ++ q :: later := by simp [h]
  obtain ⟨stop,hp,hq,-,hstop⟩ := split_consecutive h
  refine ⟨?_,?_,?_⟩
  · obtain ⟨front,rest,-,-,hshown,-⟩ := splitFrom_resume hsplit
    have hopens : q.separator.Opens rest := hshown.resolve_left (by simp)
    cases hsep : q.separator with
    | bracket => exact Or.inl rfl
    | dot => exact Or.inr rfl
    | start => exact absurd (hsep ▸ hopens) (Separator.not_opens_start rest)
    | missing => exact absurd hsep (separator_of_bracket hsplit hbracket)
  · intro hsep
    rw [hq,hp,hsep]
    rfl
  · intro hlen hsep
    rw [hsep,Separator.width] at hq hstop
    rw [hq,hp,Region.span_start,Region.clamp_of_le (by omega),Region.clamp_of_le (by omega)]

/-- An index or a qualifier stands in brackets, with nothing or a dot in front of it. It begins where
the node before it ends exactly if it is nothing; behind a dot it begins one byte further on. -/
theorem resolve_bracket_adjacent_iff (env : Environment) {path : String} {k : Nat}
    {node next : Node} {r : Referent} (hnode : (resolve env path)[k]? = some node)
    (hnext : (resolve env path)[k + 1]? = some next) (hr : next.referent? = some r)
    (hkind : r.category = .index ∨ r.category = .qualifier) :
    ∃ part, (split path)[k + 1]? = some part ∧ part.isBracket = true ∧
      (part.separator = .bracket ∨ part.separator = .dot) ∧
      (part.separator = .bracket → next.region.start = node.region.stop) ∧
      (path.utf8ByteSize ≤ Region.limit →
        (next.region.start = node.region.stop ↔ part.separator = .bracket) ∧
        (part.separator = .dot → next.region.start = node.region.stop + 1)) := by
  have hne := ne_empty_of_referent? (List.mem_of_getElem? hnext) hr
  rw [resolve_eq hne] at hnode hnext
  obtain ⟨p,hp,rfl⟩ := getElem?_resolveFrom hnode
  obtain ⟨q,hq,rfl⟩ := getElem?_resolveFrom hnext
  obtain ⟨-,rule,r',t,heq,hdenotes⟩ := denotes_of_partNode (isInvalid_of_referent? hr)
  rw [heq] at hr
  cases hr
  have hbracket : q.isBracket = true := (hdenotes.isTerminated_iff hkind).1
  have hsplit : split path = (split path).take k ++ p :: q :: (split path).drop (k + 2) := by
    have hlater := eq_append_of_getElem? hp
    obtain ⟨hk,hget⟩ := List.getElem?_eq_some_iff.mp hq
    rwa [List.drop_eq_getElem_cons hk,hget] at hlater
  obtain ⟨hsep,hdirect,hdot⟩ := split_bracket_behind hsplit hbracket
  refine ⟨q,hq,hbracket,hsep,hdirect,fun hlen => ⟨⟨fun hstart => ?_,hdirect⟩,hdot hlen⟩⟩
  refine hsep.resolve_right fun hdotted => ?_
  have hgap := hdot hlen hdotted
  change q.region.start = p.region.stop at hstart
  omega

theorem resolve_bracket_adjacent_covers :
    let path := "covers[\"BASE\"][0]"
    path.utf8ByteSize ≤ Region.limit ∧
      (resolve sampleEnvironment path)[2]?.bind Node.category? = some .index ∧
      ∃ node next, (resolve sampleEnvironment path)[1]? = some node ∧
        (resolve sampleEnvironment path)[2]? = some next ∧
        next.region.start = node.region.stop := by
  intro path
  have hnode : (resolve sampleEnvironment path)[1]? = some ⟨Region.span 6 8,
      .resolved (.qualifier "BASE" "base.1" ⟨"BASE", "BASE", some "base.1", "CoverType", none⟩)
        (.list (.policy "Cover"))⟩ := by decide +kernel
  have hnext : (resolve sampleEnvironment path)[2]? = some ⟨Region.span 14 3,
      .resolved (.index 0) (.policy "Cover")⟩ := by decide +kernel
  obtain ⟨part,hpart,-,-,hdirect,-⟩ :=
    resolve_bracket_adjacent_iff sampleEnvironment hnode hnext rfl (Or.inl rfl)
  have hsep : (split path)[2]?.map (·.separator) = some .bracket := by decide +kernel
  rw [hpart,Option.map_some,Option.some.injEq] at hsep
  exact ⟨by decide,by rw [hnext]; rfl,_,_,hnode,hnext,hdirect hsep⟩

/-- An index behind a dot: it picks an element of the covers, and its region does not begin where
theirs ends. -/
theorem resolve_bracket_behind_dot :
    let path := "covers.[0]"
    (resolve sampleEnvironment path)[1]?.bind Node.category? = some .index ∧
      (resolve sampleEnvironment path)[0]?.map (·.region.stop) = some 6 ∧
      (resolve sampleEnvironment path)[1]?.map (·.region.start) = some 7 := by
  decide +kernel

end FormulaPath
