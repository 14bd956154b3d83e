/-!
Of several things with one name the first counts. `keepFirst` drops the others and keeps the order.
-/
namespace FormulaPath

variable {α : Type}

/-- The list without the entries whose name an earlier entry has. -/
def keepFirst (name : α → String) : List α → List α
  | [] => []
  | a :: as => a :: (keepFirst name as).filter (name · != name a)

/-- The names of the kept entries are distinct. -/
theorem keepFirst_pairwise (name : α → String) (as : List α) :
    (keepFirst name as).Pairwise (name · ≠ name ·) := by
  induction as with
  | nil => exact List.Pairwise.nil
  | cons a as ih =>
    rw [keepFirst, List.pairwise_cons]
    constructor
    · intro b hb
      have h := (List.mem_filter.mp hb).2
      simp only [bne_iff_ne] at h
      exact fun heq => h heq.symm
    · exact ih.filter _

/-- The first entry of a name is kept, and it is still the first. -/
theorem keepFirst_find? (name : α → String) (as : List α) (n : String) :
    (keepFirst name as).find? (name · == n) = as.find? (name · == n) := by
  induction as with
  | nil => rfl
  | cons a as ih =>
    rw [keepFirst]
    by_cases h : name a = n
    · simp [h]
    · have hfilter : ((keepFirst name as).filter (name · != name a)).find? (name · == n) =
          (keepFirst name as).find? (name · == n) := by
        rw [List.find?_filter]
        congr 1
        funext b
        by_cases hb : name b = n
        · simp [hb, Ne.symm h]
        · simp [hb]
      simp [h, hfilter, ih]

/-- Among entries with distinct names each is the first of its name. -/
theorem find?_of_pairwise {name : α → String} {as : List α} {a : α}
    (hnames : as.Pairwise (name · ≠ name ·)) (ha : a ∈ as) :
    as.find? (name · == name a) = some a := by
  induction as with
  | nil => cases ha
  | cons b as ih =>
    have hrest := List.pairwise_cons.mp hnames
    rcases List.mem_cons.mp ha with rfl | ha
    · simp
    · rw [List.find?_cons_of_neg (by simpa using hrest.1 a ha)]
      exact ih hrest.2 ha

/-- What is kept is the first entry of its name. -/
theorem mem_keepFirst_iff {name : α → String} {as : List α} {a : α} :
    a ∈ keepFirst name as ↔ as.find? (name · == name a) = some a := by
  rw [← keepFirst_find?]
  exact ⟨find?_of_pairwise (keepFirst_pairwise name as),List.mem_of_find?_eq_some⟩

end FormulaPath
