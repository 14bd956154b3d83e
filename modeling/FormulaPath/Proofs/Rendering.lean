import FormulaPath.Proofs.Continuation
import FormulaPath.Proofs.Offer
import FormulaPath.Proofs.Shape

/-!
# The plain text of a chain

A chain can be written down again from what its nodes refer to. `render` does so without the
freedoms of a path: no dot in front of a bracket and no leading zeros. The text splits into exactly
the pieces that were written (`splitFrom_spell`), since each of them is a whole part and is closed
where another follows. Each piece refers to what it was written for (`Denotes.decide?_text`), and by
induction the whole text resolves to the chain that it was written from.
-/
namespace FormulaPath
open FormulaPath.Path

namespace Referent

/-- What a path says to refer to this. -/
def text (o : Options) : Referent → String
  | param p => p.name
  | attr a access => o.writeName a.name access
  | assoc a => a.name
  | qualifier name _ _ => Bracket.qualifierText name
  | index position => Bracket.indexText position
  | enumClass e => e.name
  | enumValue _ v => v.id

/-- What stands between the part in front and the text of this. -/
def separator : Referent → Separator
  | qualifier _ _ _ | index _ => .bracket
  | _ => .dot

theorem separator_ne_missing (r : Referent) : r.separator ≠ .missing := by
  cases r <;> simp [separator]

end Referent

/-- The texts of referents, joined to a path. -/
def spell (o : Options) : List Referent → String
  | [] => ""
  | r :: rs => r.text o ++ String.join (rs.map fun s => s.separator.text ++ s.text o)

/-- The plain path of a chain. -/
def render (o : Options) (chain : List Node) : String := spell o (chain.filterMap Node.referent?)

/-! ## The parts of the text -/

namespace Path
open Separator

theorem takePart_front (cs : List Char) : (takePart (takePart cs).1).2 = [] := by
  have happ := takePart_append cs
  by_cases hnone : (takePart cs).2 = []
  · rw [hnone,List.append_nil] at happ
    rw [happ,hnone]
  · by_cases hopen : cs.head? = some '['
    · obtain ⟨inside,rfl⟩ := List.head?_eq_some_iff.mp hopen
      have hresume := takeBracket_resume hnone []
      rw [List.append_nil] at hresume
      change (takeBracket false (takeBracket false inside).1).2 = []
      rw [hresume]
    · rw [takePart_of_head hopen,takePart_name fun _ => mem_takeName]

theorem takeBracket_plain {inside : List Char} (hquote : '"' ∉ inside) (hclose : ']' ∉ inside)
    (r : List Char) : takeBracket false (inside ++ ']' :: r) = (inside ++ [']'], r) := by
  apply takeBracket_close
  · intro i _ hi
    exact absurd (List.mem_of_getElem? hi) hclose
  · simp [opensQuote, List.count_eq_zero.mpr hquote]

theorem takePart_indexText (position : Nat) :
    (takePart (Bracket.indexText position).toList).2 = [] := by
  have hdigits : ∀ c ∈ Nat.toDigits 10 position, c.isDigit = true :=
    fun c hc => Nat.isDigit_of_mem_toDigits (by decide) (by decide) hc
  have hfree : ∀ c, c.isDigit = false → c ∉ Nat.toDigits 10 position := by
    intro c hc hmem
    rw [hdigits c hmem] at hc
    cases hc
  rw [Bracket.toList_indexText]
  change (takeBracket false (Nat.toDigits 10 position ++ [']'])).2 = []
  rw [takeBracket_plain (hfree '"' rfl) (hfree ']' rfl)]

end Path

section Splitting
variable {o : Options} {r s : Referent} {rs : List Referent}

/-- The text of `s` can be written behind that of `r`: this is closed, and a bracket has something
in front of it. -/
structure Joins (o : Options) (r s : Referent) : Prop where
  closed : isBracketText (r.text o) = true → isTerminated (r.text o) = true
  front : s.separator = .bracket → r.text o ≠ ""

theorem toList_spell_cons (o : Options) (r s : Referent) (rs : List Referent) :
    (spell o (r :: s :: rs)).toList =
      (r.text o).toList ++ (s.separator.text.toList ++ (spell o (s :: rs)).toList) := by
  simp [spell, String.toList_append]

theorem opens_spell (o : Options) (s : Referent) (rs : List Referent) :
    s.separator.Opens (spell o (s :: rs)).toList := by
  have hopens : s.separator.Opens (s.text o).toList := by
    cases s with
    | qualifier name =>
        rw [Referent.text,Bracket.toList_qualifierText]
        rfl
    | index position =>
        rw [Referent.text,Bracket.toList_indexText]
        rfl
    | _ => exact Separator.opens_dot _
  rw [spell,String.toList_append]
  exact hopens.append _

/-- A text that is written piece by piece splits into its pieces. -/
theorem splitFrom_spell (sep : Separator) (start : Nat)
    (hwhole : ∀ s ∈ r :: rs, (takePart (s.text o).toList).2 = [])
    (hjoins : (r :: rs).IsChain (Joins o)) :
    (splitFrom sep start (spell o (r :: rs)).toList).map (fun p => (p.separator, p.text)) =
      (sep, r.text o) :: rs.map fun s => (s.separator, s.text o) := by
  induction rs generalizing r sep start with
  | nil =>
      have hr := hwhole r List.mem_cons_self
      have hspell : spell o [r] = r.text o := by simp [spell]
      rw [hspell,splitFrom_last hr]
      simp
  | cons s rs ih =>
      rw [List.isChain_cons_cons] at hjoins
      obtain ⟨hjoin,hrest⟩ := hjoins
      -- The character behind the first text tells the separator, and the text ends in front of it.
      obtain ⟨c,more,happ,hc,hdrop⟩ := (opens_spell o s rs).exists_cons
      have hends : endsName c = true := Separator.endsName_of_ofChar (hc ▸ s.separator_ne_missing)
      have hbracket : c = '[' → r.text o ≠ "" := by
        intro hopen
        exact hjoin.front (by rw [← hc,hopen]; rfl)
      have htake := takePart_append_of_closed (hwhole r List.mem_cons_self) hjoin.closed hends
        hbracket more
      have hmore : (takePart ((r.text o).toList ++ c :: more)).2 = c :: more := by rw [htake]
      rw [toList_spell_cons,happ,splitFrom_next hmore,hc,hdrop,List.map_cons,
        ih _ _ (fun s hs => hwhole s (List.mem_cons_of_mem _ hs)) hrest,htake]
      simp

theorem split_spell (hne : rs ≠ []) (hwhole : ∀ r ∈ rs, (takePart (r.text o).toList).2 = [])
    (hjoins : rs.IsChain (Joins o)) :
    (split (spell o rs)).map Part.text = rs.map (Referent.text o) ∧
      ∀ q ∈ split (spell o rs), q.separator ≠ .missing := by
  cases rs with
  | nil => exact absurd rfl hne
  | cons r rs =>
      have hpieces : (split (spell o (r :: rs))).map (fun p => (p.separator, p.text)) =
          (.start, r.text o) :: rs.map fun s => (s.separator, s.text o) :=
        splitFrom_spell .start 0 hwhole hjoins
      constructor
      · have htexts := congrArg (List.map Prod.snd) hpieces
        rw [List.map_map,List.map_cons,List.map_map] at htexts
        exact htexts
      · intro q hq
        have hmem := List.mem_map_of_mem (f := fun p : Part => (p.separator, p.text)) hq
        rw [hpieces,List.mem_cons] at hmem
        rcases hmem with heq | hmem
        · rw [(Prod.mk.inj heq).1]
          simp
        · obtain ⟨s,-,heq⟩ := List.mem_map.mp hmem
          rw [← (Prod.mk.inj heq).1]
          exact s.separator_ne_missing

end Splitting

/-! ## What the parts refer to -/

section Reading
variable {env : Environment} {t u : Trail} {text : String} {rule : Rule} {r : Referent}
  {d : Datatype}

/-- Only an index can be written in more than one way, and its plain digits are read as well. -/
theorem Denotes.text_cases (h : Denotes env t text rule r d) :
    r.text env.options = text ∨ ∃ position, r = .index position ∧
      Bracket.ofText (r.text env.options) = .index position := by
  cases h with
  | param _ _ hp => exact Or.inl (by simpa [Referent.text] using List.find?_some hp)
  | attr _ _ hname ha =>
      have hfound := List.find?_some ha
      left
      rw [(writeName_of_readName hname).1,Referent.text,beq_iff_eq.mp hfound]
  | assoc _ _ ha => exact Or.inl (by simpa [Referent.text] using List.find?_some ha)
  | enumClass _ _ he => exact Or.inl (by simpa [Referent.text] using List.find?_some he)
  | enumValue _ _ hv => exact Or.inl (by simpa [Referent.text] using List.find?_some hv)
  | index _ _ htext =>
      exact Or.inr ⟨_,rfl,Bracket.ofText_indexText (Bracket.lt_of_ofText_eq_index htext)⟩
  | qualifier _ _ htext => exact Or.inl (Bracket.ofText_eq_qualifier htext).symm

theorem isBracketText_indexText (position : Nat) :
    isBracketText (Bracket.indexText position) = true := by
  simp [isBracketText, Bracket.toList_indexText]

/-- What a part refers to is found again by the text that is written for it. -/
theorem Denotes.decide?_text (h : Denotes env t text rule r d)
    (hdecide : Rule.decide? env t text = some (.resolved r d)) :
    Rule.decide? env t (r.text env.options) = some (.resolved r d) := by
  rcases h.text_cases with htext | ⟨position,rfl,hread⟩
  · rw [htext]
    exact hdecide
  · have hbracket : isBracketText (Referent.text env.options (.index position)) = true :=
      isBracketText_indexText position
    rw [Rule.decide?_of_bracket hbracket,Rule.bracketMeaning?_resolved_iff]
    cases h with
    | index _ ha _ hcurrent hallowed hd => exact .index hbracket ha hread hcurrent hallowed hd

theorem Denotes.takePart_text (h : Denotes env t text rule r d)
    (hwhole : (takePart text.toList).2 = []) :
    (takePart (r.text env.options).toList).2 = [] := by
  rcases h.text_cases with htext | ⟨position,rfl,-⟩
  · rw [htext]
    exact hwhole
  · exact takePart_indexText position

theorem Denotes.isTerminated_text (h : Denotes env t text rule r d)
    (hclosed : isBracketText text = true → isTerminated text = true) :
    isBracketText (r.text env.options) = true → isTerminated (r.text env.options) = true := by
  rcases h.text_cases with htext | ⟨position,rfl,hread⟩
  · rw [htext]
    exact hclosed
  · intro _
    exact isTerminated_of_index hread

theorem Alike.decide?_eq (h : Alike t u) : Rule.decide? env t text = Rule.decide? env u text := by
  unfold Rule.decide?
  simp only [h.meaning?_eq env]

/-- One part, written again behind a trail that is alike. -/
theorem partMeaning_rewritten {p q : Part} (halike : Alike t u)
    (hvalid : (partNode env t p).isInvalid = false)
    (hr : (partNode env t p).referent? = some r) (htext : q.text = r.text env.options)
    (hsep : q.separator ≠ .missing) : partMeaning env u q = partMeaning env t p := by
  obtain ⟨hp,rule,s,d,hnode,hdenotes⟩ := denotes_of_partNode hvalid
  rw [hnode] at hr
  cases hr
  have hmeaning : partMeaning env t p = .resolved r d := congrArg Node.meaning hnode
  have hdecide : Rule.decide? env t p.text = some (.resolved r d) := by
    rw [partMeaning,if_neg hp] at hmeaning
    cases hfound : Rule.decide? env t p.text with
    | none => simp [hfound] at hmeaning
    | some meaning => simpa [hfound] using hmeaning
  rw [hmeaning,partMeaning,if_neg hsep,htext,← halike.decide?_eq,hdenotes.decide?_text hdecide]
  rfl

/-- All parts, by induction: each is read behind the same meanings as before. -/
theorem resolveFrom_rewritten {ps qs : List Part} {rs : List Referent} (halike : Alike t u)
    (hvalid : ∀ node ∈ resolveFrom env t ps, node.isInvalid = false)
    (hrs : (resolveFrom env t ps).map Node.referent? = rs.map some)
    (hqs : qs.map Part.text = rs.map (Referent.text env.options))
    (hsep : ∀ q ∈ qs, q.separator ≠ .missing) :
    (resolveFrom env u qs).map Node.meaning = (resolveFrom env t ps).map Node.meaning := by
  induction ps generalizing t u qs rs with
  | nil =>
      obtain rfl : rs = [] := by simpa [resolveFrom] using hrs
      obtain rfl : qs = [] := by simpa using hqs
      rfl
  | cons p ps ih =>
      obtain ⟨hp,hps⟩ := forall_valid_cons.mp hvalid
      rw [resolveFrom_cons_valid hp] at hrs ⊢
      cases rs with
      | nil => simp at hrs
      | cons r rs =>
          cases qs with
          | nil => simp at hqs
          | cons q qs =>
              rw [List.map_cons,List.map_cons,List.cons.injEq] at hrs hqs
              have hmeaning := partMeaning_rewritten halike hp hrs.1 hqs.1
                (hsep q List.mem_cons_self)
              have hq : (partNode env u q).isInvalid = false :=
                (isInvalid_congr (n := partNode env t p) hmeaning).trans hp
              have hnext : Alike (partNode env t p :: t) (partNode env u q :: u) :=
                .cons hmeaning.symm (halike.sameForNames env).list fun _ => halike.scope
              have hrest := ih hnext hps hrs.2 hqs.2 fun q hmem =>
                hsep q (List.mem_cons_of_mem _ hmem)
              rw [resolveFrom_cons_valid hq,List.map_cons,List.map_cons,hrest]
              exact congrArg (· :: _) hmeaning

end Reading

/-! ## The chain of the text -/

section Chains
variable {env : Environment} {path : String} {ps : List Part} {rs : List Referent} {i : Nat}
  {r s : Referent}

theorem takePart_of_mem_split {part : Part} (h : part ∈ split path) :
    (takePart part.text.toList).2 = [] := by
  obtain ⟨init,later,hsplit⟩ := List.append_of_mem h
  obtain ⟨front,rest,-,-,-,hresume,-⟩ := splitFrom_resume hsplit
  rw [head_of_splitFrom hresume,String.toList_ofList]
  exact takePart_front rest

theorem isTerminated_of_next {part next : Part} (hpart : (split path)[i]? = some part)
    (hnext : (split path)[i + 1]? = some next) (hbracket : isBracketText part.text = true) :
    isTerminated part.text = true := by
  by_contra hopen
  have hsplit := eq_append_of_getElem? hpart
  have hlast := (last_of_not_terminated hsplit hbracket (by simpa using hopen)).1
  have hlen := (List.getElem?_eq_some_iff.mp hnext).1
  rw [List.drop_eq_nil_iff] at hlast
  omega

theorem map_referent? {chain : List Node} (h : ∀ node ∈ chain, node.referent?.isSome = true) :
    chain.map Node.referent? = (chain.filterMap Node.referent?).map some := by
  induction chain with
  | nil => rfl
  | cons node chain ih =>
      obtain ⟨r,hr⟩ := Option.isSome_iff_exists.mp (h node List.mem_cons_self)
      rw [List.map_cons,List.filterMap_cons_some hr,List.map_cons,hr,
        ih fun n hn => h n (List.mem_cons_of_mem _ hn)]

theorem isSome_referent? {node : Node} (hmem : node ∈ resolveFrom env [] ps)
    (hvalid : node.isInvalid = false) : node.referent?.isSome = true := by
  obtain ⟨i,hi⟩ := List.mem_iff_getElem?.mp hmem
  obtain ⟨part,rule,r,d,rfl,-⟩ := denotes_at hi hvalid
  rfl

/-- The referent at a place is what the part there denotes behind the nodes in front of it. -/
theorem denotes_of_referent (hrs : (resolveFrom env [] ps).map Node.referent? = rs.map some)
    (hr : rs[i]? = some r) : ∃ (part : Part) (rule : Rule) (d : Datatype), ps[i]? = some part ∧
      (resolveFrom env [] ps)[i]? = some ⟨part.region, .resolved r d⟩ ∧
      Denotes env ((resolveFrom env [] ps).take i).reverse part.text rule r d := by
  have hplace := congrArg (·[i]?) hrs
  simp only [List.getElem?_map, hr, Option.map_some] at hplace
  obtain ⟨node,hnode,href⟩ := Option.map_eq_some_iff.mp hplace
  obtain ⟨part,hpart,rfl⟩ := getElem?_resolveFrom hnode
  rw [List.append_nil] at hnode href
  obtain ⟨-,rule,found,d,heq,hdenotes⟩ := denotes_of_partNode (isInvalid_of_referent? href)
  rw [heq] at hnode href
  cases href
  exact ⟨part,rule,d,hpart,hnode,hdenotes⟩

theorem Denotes.text_ne_empty
    (hnames : ∀ owner, ∀ a ∈ env.schema.associations owner, a.name ≠ "")
    {t : Trail} {text : String} {rule : Rule} {d : Datatype} (h : Denotes env t text rule r d)
    (hkind : r.category = .assoc ∨ r.category = .qualifier) (o : Options) : r.text o ≠ "" := by
  cases h with
  | assoc _ _ ha => exact hnames _ _ (List.mem_of_find?_eq_some ha)
  | @qualifier a before c name =>
      intro hempty
      have hlist := congrArg String.toList hempty
      rw [Referent.text,Bracket.toList_qualifierText] at hlist
      cases hlist
  | _ => simp [Referent.category] at hkind

/-- Neighbours of a chain can be written one behind the other: a bracket stands behind an
association or a qualifier, and these have a text. -/
theorem joins_of_referents (hnames : ∀ owner, ∀ a ∈ env.schema.associations owner, a.name ≠ "")
    (hrs : (resolveFrom env [] (split path)).map Node.referent? = rs.map some) :
    rs.IsChain (Joins env.options) := by
  rw [List.isChain_iff_getElem]
  intro i hi
  obtain ⟨part,rule,d,hpart,hnode,hdenotes⟩ :=
    denotes_of_referent hrs (List.getElem?_eq_getElem (by omega : i < rs.length))
  obtain ⟨next,rule',d',hnext,-,hdenotes'⟩ := denotes_of_referent hrs (List.getElem?_eq_getElem hi)
  refine ⟨hdenotes.isTerminated_text (isTerminated_of_next hpart hnext),?_⟩
  intro hsep
  rw [reverse_take_succ hnode] at hdenotes'
  have hkind := (Category.of_admits (hdenotes.admits hdenotes')).2.2
  apply hdenotes.text_ne_empty hnames (hkind ?_)
  cases hs : rs[i + 1] <;> simp_all [Referent.separator, Referent.category]

theorem whole_of_referents
    (hrs : (resolveFrom env [] (split path)).map Node.referent? = rs.map some) :
    ∀ r ∈ rs, (takePart (r.text env.options).toList).2 = [] := by
  intro r hr
  obtain ⟨i,hi⟩ := List.mem_iff_getElem?.mp hr
  obtain ⟨part,rule,d,hpart,-,hdenotes⟩ := denotes_of_referent hrs hi
  exact hdenotes.takePart_text (takePart_of_mem_split (List.mem_of_getElem? hpart))

/-- The plain text is not empty: a single part is written as it was. -/
theorem spell_ne_empty (hne : path ≠ "")
    (hvalid : ∀ node ∈ resolveFrom env [] (split path), node.isInvalid = false)
    (hrs : (resolveFrom env [] (split path)).map Node.referent? = rs.map some)
    (htexts : (split (spell env.options rs)).map Part.text = rs.map (Referent.text env.options)) :
    spell env.options rs ≠ "" := by
  intro hempty
  rw [hempty,split_empty] at htexts
  obtain ⟨r,rfl,hr⟩ := List.map_eq_singleton_iff.mp htexts.symm
  have hlen := length_resolveFrom hvalid
  rw [← List.length_map (f := Node.referent?),hrs] at hlen
  obtain ⟨only,hsplit⟩ := List.length_eq_one_iff.mp hlen.symm
  have hpath : only.text = path := by rw [(splitFrom_singleton hsplit).2,String.ofList_toList]
  obtain ⟨part,rule,d,hpart,-,hdenotes⟩ := denotes_of_referent hrs (i := 0) rfl
  obtain rfl : only = part := by simpa [hsplit] using hpart
  rcases hdenotes.text_cases with htext | ⟨position,-,hread⟩
  · rw [hr,hpath] at htext
    exact hne htext.symm
  · rw [hr] at hread
    cases hread

theorem render_congr {o : Options} {chain other : List Node}
    (h : chain.map Node.meaning = other.map Node.meaning) : render o chain = render o other := by
  have hreferent : Node.referent? = Meaning.referent? ∘ Node.meaning := rfl
  rw [render,render,hreferent,← List.filterMap_map,h,List.filterMap_map]

end Chains

/-- The plain text of a chain resolves to the meanings of this chain, and it is the plain text of
the chain that it resolves to. The names of associations must not be empty, since a bracket behind
an empty name would open the text. -/
theorem resolve_render (env : Environment)
    (hnames : ∀ owner, ∀ a ∈ env.schema.associations owner, a.name ≠ "") {path : String}
    (hne : path ≠ "") (hvalid : ∀ node ∈ resolve env path, node.isInvalid = false) :
    let text := render env.options (resolve env path)
    (∀ node ∈ resolve env text, node.isInvalid = false) ∧
      (resolve env text).map Node.meaning = (resolve env path).map Node.meaning ∧
      render env.options (resolve env text) = text := by
  intro text
  have hmeaning : (resolve env text).map Node.meaning = (resolve env path).map Node.meaning := by
    have hchain : resolve env path = resolveFrom env [] (split path) := resolve_eq hne
    have htext : text = spell env.options
        ((resolveFrom env [] (split path)).filterMap Node.referent?) := by rw [← hchain]; rfl
    rw [hchain] at hvalid ⊢
    have hrs := map_referent? fun node hnode => isSome_referent? hnode (hvalid node hnode)
    have hsome : (resolveFrom env [] (split path)).filterMap Node.referent? ≠ [] := by
      intro hnil
      rw [hnil,List.map_nil,List.map_eq_nil_iff] at hrs
      exact resolve_ne_nil env path (hchain.trans hrs)
    obtain ⟨htexts,hsep⟩ :=
      split_spell hsome (whole_of_referents hrs) (joins_of_referents hnames hrs)
    rw [htext,resolve_eq (spell_ne_empty hne hvalid hrs htexts)]
    exact resolveFrom_rewritten ⟨rfl,rfl⟩ hvalid hrs htexts hsep
  refine ⟨?_,hmeaning,render_congr hmeaning⟩
  intro node hnode
  have hmem : node.meaning ∈ (resolve env path).map Node.meaning := by
    rw [← hmeaning]
    exact List.mem_map_of_mem hnode
  obtain ⟨found,hfound,heq⟩ := List.mem_map.mp hmem
  rw [← isInvalid_congr heq]
  exact hvalid found hfound

theorem resolve_render_covers :
    let path := "covers.[\"BASE\"][007].sum"
    let text := "covers[\"BASE\"][7].sum"
    (∀ node ∈ resolve sampleEnvironment path, node.isInvalid = false) ∧
      render sampleEnvironment.options (resolve sampleEnvironment path) = text ∧
      (resolve sampleEnvironment text).map Node.meaning =
        (resolve sampleEnvironment path).map Node.meaning ∧
      render sampleEnvironment.options (resolve sampleEnvironment text) = text := by
  intro path text
  have hnames : ∀ owner, ∀ a ∈ sampleEnvironment.schema.associations owner, a.name ≠ "" := by
    intro owner a ha
    obtain ⟨t,ht,ha⟩ := Model.declared_of_mem_associations ha
    have hlisted : ∀ t ∈ sampleModel.types, ∀ a ∈ t.associations, a.name ≠ "" := by decide
    exact hlisted t (Model.mem_of_type? ht) a ha
  have hvalid : ∀ node ∈ resolve sampleEnvironment path, node.isInvalid = false := by
    decide +kernel
  have htext : render sampleEnvironment.options (resolve sampleEnvironment path) = text := by
    decide +kernel
  have hrender := resolve_render sampleEnvironment hnames (by decide) hvalid
  rw [htext] at hrender
  exact ⟨hvalid,htext,hrender.2⟩

end FormulaPath
