/-!
# Visit orders

Six depth-first orders and the breadth-first one. A depth-first order is a fixed sequence of three
steps taken at every node; a reverse order takes the steps of its forward order backwards, so it
shows the exact reverse of the forward sequence. Each order has a code, its position in `Order.all`.
-/
namespace MemIndex.Walk

inductive Order where
  | inOrder
  | preOrder
  | postOrder
  | inOrderReverse
  | preOrderReverse
  | postOrderReverse
  | breadthFirst
  deriving DecidableEq

/-- What a depth-first walk does next at a node. -/
inductive Step where
  | left
  | body
  | right
  deriving DecidableEq

namespace Order

def all : List Order :=
  [inOrder, preOrder, postOrder, inOrderReverse, preOrderReverse, postOrderReverse, breadthFirst]

def code : Order → Nat
  | inOrder => 0
  | preOrder => 1
  | postOrder => 2
  | inOrderReverse => 3
  | preOrderReverse => 4
  | postOrderReverse => 5
  | breadthFirst => 6

def ofCode? (code : Nat) : Option Order := all[code]?

def name : Order → String
  | inOrder => "InOrder"
  | preOrder => "PreOrder"
  | postOrder => "PostOrder"
  | inOrderReverse => "InOrderReverse"
  | preOrderReverse => "PreOrderReverse"
  | postOrderReverse => "PostOrderReverse"
  | breadthFirst => "BreadthFirst"

/-- The steps at each node, none for the breadth-first order. -/
def steps? : Order → Option (List Step)
  | inOrder => some [.left, .body, .right]
  | preOrder => some [.body, .left, .right]
  | postOrder => some [.left, .right, .body]
  | inOrderReverse => some [.right, .body, .left]
  | preOrderReverse => some [.right, .left, .body]
  | postOrderReverse => some [.body, .right, .left]
  | breadthFirst => none

@[simp] theorem ofCode?_code (order : Order) : ofCode? order.code = some order := by
  cases order <;> rfl

end Order

end MemIndex.Walk
