import StringTerms.Folding

/-!
# Integer operations

Sum, difference and order of unbounded integers.
-/

namespace StringTerms.Arithmetic

/-- The sum of two integers. -/
def add (a b : Value .int) : Builder (Value .int) :=
  compute .add (.two a b) fun (.two x y) => some (x + y)

/-- The difference of two integers. -/
def subtract (a b : Value .int) : Builder (Value .int) :=
  compute .sub (.two a b) fun (.two x y) => some (x - y)

/-- Whether `a` is at most `b`. -/
def atMost (a b : Value .int) : Builder (Value .bool) :=
  compute .le (.two a b) fun (.two x y) => some (decide (x ≤ y))

/-- Whether `a` is less than `b`. -/
def lessThan (a b : Value .int) : Builder (Value .bool) :=
  compute .lt (.two a b) fun (.two x y) => some (decide (x < y))

/-- Whether `a` is at least `b`. -/
def atLeast (a b : Value .int) : Builder (Value .bool) :=
  compute .ge (.two a b) fun (.two x y) => some (decide (x ≥ y))

/-- Whether `a` is greater than `b`. -/
def greaterThan (a b : Value .int) : Builder (Value .bool) :=
  compute .gt (.two a b) fun (.two x y) => some (decide (x > y))

end StringTerms.Arithmetic
